import RPCortex.Sd.Ends

/-! Which block a command of the driver names: the capacity by the register's fields, and the address in the frame. -/

namespace RPCortex.Sd

/-! ### The card's side -/

/-- The register as a number: its first byte has the highest bits. -/
def register (csd : List UInt8) : Nat := csd.foldl (fun r b => r * 256 + b.toNat) 0

/-- The bits `[hi:lo]` of the register. -/
def field (csd : List UInt8) (hi lo : Nat) : Nat := register csd / 2 ^ lo % 2 ^ (hi + 1 - lo)

/-- The blocks of 512 bytes of a card, where `CSD_STRUCTURE` is one of the two that are defined.  The first counts
blocks of `2 ^ READ_BL_LEN` bytes, the second 512 KB. -/
def specBlocks (csd : List UInt8) : Option Nat :=
  if field csd 127 126 = 0 then
    some ((field csd 73 62 + 1) * 2 ^ (field csd 49 47 + 2) * 2 ^ field csd 83 80 / 512)
  else if field csd 127 126 = 1 then some ((field csd 69 48 + 1) * 1024)
  else none

/-- The argument in a frame, as the card reads it. -/
def argument (f : List UInt8) : Nat := register ((f.drop 1).take 4)

/-- The byte of the card that an argument denotes. -/
def place (blockAddressed : Bool) (arg : Nat) : Nat := if blockAddressed then arg * 512 else arg

/-! ### Fields -/

variable {csd bytes rest : List UInt8} {a b d : UInt8}

theorem register_append : register (bytes ++ rest) = register bytes * 256 ^ rest.length + register rest := by
  unfold register
  rw [List.foldl_append]
  generalize bytes.foldl (fun r b => r * 256 + b.toNat) 0 = r
  induction rest generalizing r with
  | nil => simp
  | cons b rest ih =>
    rw [List.foldl_cons, ih, List.foldl_cons, @ih (0 * 256 + b.toNat), List.length_cons]
    ring

theorem register_lt : register bytes < 256 ^ bytes.length := by
  induction bytes using List.reverseRecOn with
  | nil => exact Nat.one_pos
  | append_singleton bytes b ih =>
    have byte := b.toNat_lt
    have one : register [b] = b.toNat := Nat.zero_add _
    rw [register_append, one, List.length_append, List.length_singleton, Nat.pow_one, Nat.pow_succ]
    omega

/-- A byte of the register. -/
theorem register_byte (whole : csd.length = 16) (i : Nat) (h : i < 16) :
    register csd / 256 ^ (15 - i) % 256 = (csd.getD i 0).toNat := by
  have lt : i < csd.length := by omega
  have parts : csd = csd.take i ++ (csd[i] :: csd.drop (i + 1)) := by
    rw [← List.drop_eq_getElem_cons lt, List.take_append_drop]
  have long : (csd.drop (i + 1)).length = 15 - i := by rw [List.length_drop]; omega
  have byte := csd[i].toNat_lt
  have small := @register_lt (csd.drop (i + 1))
  have split : register csd = (register (csd.take i) * 256 + csd[i].toNat) * 256 ^ (15 - i) +
      register (csd.drop (i + 1)) := by
    conv_lhs => rw [parts]
    rw [← List.singleton_append, ← List.append_assoc, register_append, register_append, long]
    simp [register]
  rw [long] at small
  rw [List.getD_eq_getElem _ _ lt, split, Nat.add_comm, Nat.add_mul_div_right _ _ (Nat.pow_pos (by decide)),
    Nat.div_eq_of_lt small]
  omega

/-- Two fields next to each other. -/
theorem shifted_or {k x y : UInt32} (small : y.toNat < 2 ^ k.toNat) (room : x.toNat * 2 ^ k.toNat < 2 ^ 32)
    (less : k.toNat < 32) : (x <<< k ||| y).toNat = x.toNat * 2 ^ k.toNat + y.toNat := by
  have shift : (x <<< k).toNat = x.toNat * 2 ^ k.toNat := by
    rw [UInt32.toNat_shiftLeft, Nat.mod_eq_of_lt less, Nat.shiftLeft_eq, Nat.mod_eq_of_lt room]
  rw [UInt32.toNat_or, shift, ← Nat.shiftLeft_eq, Nat.shiftLeft_add_eq_or_of_lt small]

theorem low_bits (i : Fin 256) : (i.val.toUInt8.toUInt32 &&& 0x3F).toNat = i.val % 64 ∧
    (i.val.toUInt8.toUInt32 &&& 0x03).toNat = i.val % 4 ∧ (i.val.toUInt8.toUInt32 &&& 0x0F).toNat = i.val % 16 ∧
    (i.val.toUInt8.toUInt32 >>> 6).toNat = i.val / 64 ∧ (i.val.toUInt8.toUInt32 >>> 7).toNat = i.val / 128 := by
  revert i
  decide +kernel

theorem low_bits_byte : (a.toUInt32 &&& 0x3F).toNat = a.toNat % 64 ∧ (a.toUInt32 &&& 0x03).toNat = a.toNat % 4 ∧
    (a.toUInt32 &&& 0x0F).toNat = a.toNat % 16 ∧ (a.toUInt32 >>> 6).toNat = a.toNat / 64 ∧
    (a.toUInt32 >>> 7).toNat = a.toNat / 128 := by
  have := low_bits ⟨a.toNat, a.toNat_lt⟩
  rwa [show a.toNat.toUInt8 = a from UInt8.ofNat_toNat] at this

theorem shift_factor (m : Fin 8) : ((1 : UInt32) <<< (m.val.toUInt32 + 2)).toUInt64.toNat = 2 ^ (m.val + 2) := by
  revert m
  decide

theorem shift_length (l : Fin 16) : ((1 : UInt32) <<< l.val.toUInt32).toUInt64.toNat = 2 ^ l.val := by
  revert l
  decide

/-- The fields by their bytes. -/
theorem fields (whole : csd.length = 16) :
    field csd 127 126 = (csd.getD 0 0).toNat / 64 ∧
      field csd 69 48 = (csd.getD 7 0).toNat % 64 * 65536 + ((csd.getD 8 0).toNat * 256 + (csd.getD 9 0).toNat) ∧
      field csd 73 62 = (csd.getD 6 0).toNat % 4 * 1024 + ((csd.getD 7 0).toNat * 4 + (csd.getD 8 0).toNat / 64) ∧
      field csd 49 47 = (csd.getD 9 0).toNat % 4 * 2 + (csd.getD 10 0).toNat / 128 ∧
      field csd 83 80 = (csd.getD 5 0).toNat % 16 := by
  have top : register csd < 256 ^ 16 := whole ▸ register_lt
  have byte := fun i h => @register_byte csd whole i h
  refine ⟨?_, ?_, ?_, ?_, ?_⟩
  · have b0 := byte 0 (by decide)
    unfold field
    omega
  · have b7 := byte 7 (by decide)
    have b8 := byte 8 (by decide)
    have b9 := byte 9 (by decide)
    unfold field
    omega
  · have b6 := byte 6 (by decide)
    have b7 := byte 7 (by decide)
    have b8 := byte 8 (by decide)
    unfold field
    omega
  · have b9 := byte 9 (by decide)
    have b10 := byte 10 (by decide)
    unfold field
    omega
  · have b5 := byte 5 (by decide)
    unfold field
    omega

theorem csize_second : ((a.toUInt32 &&& 0x3F) <<< 16 ||| b.toUInt32 <<< 8 ||| d.toUInt32).toNat =
    a.toNat % 64 * 65536 + (b.toNat * 256 + d.toNat) := by
  have ha := a.toNat_lt
  have hb := b.toNat_lt
  have hd := d.toNat_lt
  have tail : (b.toUInt32 <<< 8 ||| d.toUInt32).toNat = b.toNat * 256 + d.toNat :=
    shifted_or hd (by rw [UInt8.toNat_toUInt32]; show _ * 2 ^ 8 < _; omega) (by decide)
  have head : (a.toUInt32 &&& 0x3F).toNat = a.toNat % 64 := (low_bits_byte).1
  rw [UInt32.or_assoc, shifted_or (by rw [tail]; show _ < 2 ^ 16; omega) (by rw [head]; show _ * 2 ^ 16 < _; omega)
    (by decide), head, tail]
  rfl

theorem csize_first : ((a.toUInt32 &&& 0x03) <<< 10 ||| b.toUInt32 <<< 2 ||| d.toUInt32 >>> 6).toNat =
    a.toNat % 4 * 1024 + (b.toNat * 4 + d.toNat / 64) := by
  have hb := b.toNat_lt
  have hd := d.toNat_lt
  have low : (d.toUInt32 >>> 6).toNat = d.toNat / 64 := (low_bits_byte).2.2.2.1
  have tail : (b.toUInt32 <<< 2 ||| d.toUInt32 >>> 6).toNat = b.toNat * 4 + d.toNat / 64 := by
    rw [shifted_or (by rw [low]; show _ < 2 ^ 2; omega) (by rw [UInt8.toNat_toUInt32]; show _ * 2 ^ 2 < _; omega)
      (by decide), low]
    rfl
  have head : (a.toUInt32 &&& 0x03).toNat = a.toNat % 4 := (low_bits_byte).2.1
  rw [UInt32.or_assoc, shifted_or (by rw [tail]; show _ < 2 ^ 10; omega) (by rw [head]; show _ * 2 ^ 10 < _; omega)
    (by decide), head, tail]
  rfl

theorem mult_first : ((a.toUInt32 &&& 0x03) <<< 1 ||| b.toUInt32 >>> 7).toNat = a.toNat % 4 * 2 + b.toNat / 128 := by
  have hb := b.toNat_lt
  have low : (b.toUInt32 >>> 7).toNat = b.toNat / 128 := (low_bits_byte).2.2.2.2
  have head : (a.toUInt32 &&& 0x03).toNat = a.toNat % 4 := (low_bits_byte).2.1
  rw [shifted_or (by rw [low]; show _ < 2 ^ 1; omega) (by rw [head]; show _ * 2 ^ 1 < _; omega) (by decide), head, low]
  rfl

theorem factor_first {m : UInt32} (small : m.toNat < 8) :
    ((1 : UInt32) <<< (m + 2)).toUInt64.toNat = 2 ^ (m.toNat + 2) := by
  have := shift_factor ⟨m.toNat, small⟩
  rwa [show m.toNat.toUInt32 = m from UInt32.ofNat_toNat] at this

theorem length_first {l : UInt32} (small : l.toNat < 16) : ((1 : UInt32) <<< l).toUInt64.toNat = 2 ^ l.toNat := by
  have := shift_length ⟨l.toNat, small⟩
  rwa [show l.toNat.toUInt32 = l from UInt32.ofNat_toNat] at this

/-- The driver's count is that of the register, in 32 bits. -/
theorem capacity_spec {n : Nat} (whole : csd.length = 16) (spec : specBlocks csd = some n) :
    (capacity csd).toNat = n % 2 ^ 32 := by
  obtain ⟨structure_, second, first, factor, length⟩ := fields whole
  unfold specBlocks at spec
  unfold capacity
  dsimp only
  by_cases zero : field csd 127 126 = 0
  · rw [if_pos zero] at spec
    obtain rfl := Option.some.inj spec
    have other : ¬(csd.getD 0 0).toUInt32 >>> 6 = 1 := by
      intro eq
      have is := congrArg UInt32.toNat eq
      rw [(low_bits_byte).2.2.2.1, ← structure_, zero] at is
      cases is
    have h7 := (csd.getD 7 0).toNat_lt
    have h8 := (csd.getD 8 0).toNat_lt
    have h10 := (csd.getD 10 0).toNat_lt
    have csize : field csd 73 62 < 4096 := by omega
    have mult : field csd 49 47 < 8 := by omega
    have bits : field csd 83 80 < 16 := by omega
    have low : ((csd.getD 5 0).toUInt32 &&& 0x0F).toNat = field csd 83 80 := (low_bits_byte).2.2.1.trans length.symm
    rw [if_neg other, UInt64.toNat_toUInt32, UInt64.toNat_div, UInt64.toNat_mul, UInt64.toNat_mul, UInt32.toNat_toUInt64,
      UInt32.toNat_add, csize_first, ← first, factor_first (by rw [mult_first, ← factor]; exact mult), mult_first, ← factor,
      length_first (by rw [low]; exact bits), low]
    have short : (field csd 73 62 + (1 : UInt32).toNat) % 2 ^ 32 = field csd 73 62 + 1 := by
      show (field csd 73 62 + 1) % 2 ^ 32 = _
      omega
    have most : (field csd 73 62 + 1) * 2 ^ (field csd 49 47 + 2) * 2 ^ field csd 83 80 ≤ 4096 * 2 ^ 9 * 2 ^ 15 :=
      Nat.mul_le_mul (Nat.mul_le_mul (by omega) (Nat.pow_le_pow_right (by decide) (by omega)))
        (Nat.pow_le_pow_right (by decide) (by omega))
    have part : (field csd 73 62 + 1) * 2 ^ (field csd 49 47 + 2) ≤ 4096 * 2 ^ 9 :=
      Nat.mul_le_mul (by omega) (Nat.pow_le_pow_right (by decide) (by omega))
    rw [short, Nat.mod_eq_of_lt (by omega : (field csd 73 62 + 1) * 2 ^ (field csd 49 47 + 2) < 2 ^ 64),
      Nat.mod_eq_of_lt (by omega :
        (field csd 73 62 + 1) * 2 ^ (field csd 49 47 + 2) * 2 ^ field csd 83 80 < 2 ^ 64)]
    rfl
  rw [if_neg zero] at spec
  by_cases one : field csd 127 126 = 1
  · rw [if_pos one] at spec
    obtain rfl := Option.some.inj spec
    have this_ : (csd.getD 0 0).toUInt32 >>> 6 = 1 := by
      rw [← UInt32.toNat_inj, (low_bits_byte).2.2.2.1, ← structure_, one]
      rfl
    rw [if_pos this_, UInt32.toNat_mul, UInt32.toNat_add, csize_second, ← second]
    exact Nat.mod_mul_mod _ _ _
  · rw [if_neg one] at spec
    cases spec

/-- The card reads the argument that the driver sends. -/
theorem argument_frame (cmd : UInt8) (arg : UInt32) : argument (frame cmd arg) = arg.toNat := by
  have four : (((frame cmd arg).drop 1).take 4) =
      [(arg >>> 24).toUInt8, (arg >>> 16).toUInt8, (arg >>> 8).toUInt8, arg.toUInt8] := rfl
  have small := arg.toNat_lt
  rw [argument, four]
  simp only [register, List.foldl_cons, List.foldl_nil, UInt32.toNat_toUInt8, UInt32.toNat_shiftRight,
    Nat.shiftRight_eq_div_pow, UInt32.reduceToNat, Nat.reduceMod]
  omega

/-! ### What a call sends -/

variable {α β : Type} {w : World} {s : State} {c : SdCard} {n : Nat} {lba : UInt32} {good : List UInt8 → Prop}
  {blocks : Bool}

/-- A frame that is sent names the block, and the card has it. -/
def Names (blocks : Bool) (n : Nat) (lba : UInt32) (f : List UInt8) : Prop :=
  f.length = 6 → lba.toNat < n ∧ place blocks (argument f) = lba.toNat * 512

/-- Where the program returns, it does with `Q`. -/
def Only (m : Dev α) (s : State) (Q : α → State → Prop) : Prop := ∀ a s', m s = some (a, s') → Q a s'

theorem Only.bind {m : Dev α} {f : α → Dev β} {Q : α → State → Prop} {R : β → State → Prop} (h : Only m s Q)
    (then_ : ∀ a s', Q a s' → Only (f a) s' R) : Only (m >>= f) s R := by
  intro b s'' eq
  change (m s).bind (fun r => f r.1 r.2) = _ at eq
  obtain ⟨⟨a, s'⟩, here, later⟩ := Option.bind_eq_some_iff.mp eq
  exact then_ a s' (h a s' here) b s'' later

theorem Only.after {m : Dev α} {f : α → Dev β} {R : β → State → Prop} (then_ : ∀ a s', Only (f a) s' R) :
    Only (m >>= f) s R :=
  Only.bind (fun _ _ _ => trivial : Only m s fun _ _ => True) fun a s' _ => then_ a s'

theorem Only.pure {a : α} {Q : α → State → Prop} (h : Q a s) : Only (pure a : Dev α) s Q := by
  intro b s' eq
  cases eq
  exact h

/-- Between the states, the addressing of the card stays, and what is sent is good. -/
def Sends (good : List UInt8 → Prop) (blocks : Bool) (s s' : State) : Prop :=
  s'.card.blockAddressed = blocks ∧ ∃ new, s'.log = s.log ++ new ∧ ∀ f, .sent f ∈ new → good f

/-- A program that sends only what is good to a card with this addressing. -/
def Sending (good : List UInt8 → Prop) (blocks : Bool) (m : Dev α) : Prop :=
  ∀ s, s.card.blockAddressed = blocks → Only m s fun _ s' => Sends good blocks s s'

theorem Sends.trans {s₁ s₂ s₃ : State} (h : Sends good blocks s₁ s₂) (h' : Sends good blocks s₂ s₃) :
    Sends good blocks s₁ s₃ := by
  obtain ⟨new, eq, all⟩ := h.2
  obtain ⟨new', eq', all'⟩ := h'.2
  refine ⟨h'.1, new ++ new', by rw [eq', eq, List.append_assoc], fun f mem => ?_⟩
  exact (List.mem_append.mp mem).elim (all f) (all' f)

theorem Sends.still {s' : State} (same : s'.card.blockAddressed = blocks) (log : s'.log = s.log) :
    Sends good blocks s s' :=
  ⟨same, [], by rw [log, List.append_nil], fun _ mem => nomatch mem⟩

theorem sending_pure {a : α} : Sending good blocks (pure a : Dev α) := fun _ same => .pure (.still same rfl)

theorem sending_failure : Sending good blocks (failure : Dev α) := by
  intro s same a s' eq
  change none = some (a, s') at eq
  cases eq

theorem Sending.bind {m : Dev α} {f : α → Dev β} (h : Sending good blocks m) (then_ : ∀ a, Sending good blocks (f a)) :
    Sending good blocks (m >>= f) := fun s same =>
  (h s same).bind fun a s' sends b s'' eq => sends.trans (then_ a s' sends.1 b s'' eq)

theorem sending_card {f : SdCard → Dev β} (then_ : ∀ c, c.blockAddressed = blocks → Sending good blocks (f c)) :
    Sending good blocks (card >>= f) := fun s same => then_ s.card same s same

theorem sending_emit {e : Signal} (g : State → State) (log : ∀ s, (g s).log = s.log ++ [e])
    (same : ∀ s, (g s).card = s.card) (ok : ∀ f, e = .sent f → good f) :
    Sending good blocks (modify g : Dev Unit) := by
  intro s addressed a s' eq
  cases eq
  refine ⟨by rw [same]; exact addressed, [e], log s, fun f mem => ?_⟩
  exact ok f (List.mem_singleton.mp mem).symm

theorem sending_signal {e : Signal} (ok : ∀ f, e ≠ .sent f) : Sending good blocks (signal e) :=
  sending_emit _ (fun _ => rfl) (fun _ => rfl) fun f eq => absurd eq (ok f)

theorem sending_cs {select : Bool} : Sending good blocks (cs select) :=
  sending_emit _ (fun _ => rfl) (fun _ => rfl) fun _ eq => nomatch eq

theorem sending_tx {bytes : List UInt8} (ok : good bytes) : Sending good blocks (tx bytes) :=
  sending_emit _ (fun _ => rfl) (fun _ => rfl) fun _ eq => Signal.sent.inj eq ▸ ok

theorem sending_setCard {f : SdCard → SdCard} (same : ∀ c, (f c).blockAddressed = c.blockAddressed) :
    Sending good blocks (setCard f) := by
  intro s addressed a s' eq
  cases eq
  exact .still (by rw [same]; exact addressed) rfl

theorem sending_now : Sending good blocks (now w) := fun s same a s' eq => by
  cases eq
  exact .still same rfl

theorem sending_fuel : Sending good blocks (fuel w) := fun s same a s' eq => by
  cases eq
  exact .still same rfl

theorem sending_rx {k : Nat} : Sending good blocks (rx w k) := fun s same a s' eq => by
  cases eq
  exact .still same rfl

theorem sending_rx1 : Sending good blocks (rx1 w) := fun s same a s' eq => by
  cases eq
  exact .still same rfl

theorem sending_clocks (k : Nat) : Sending good blocks (clocks w k) := by
  induction k with
  | zero => exact sending_pure
  | succ k ih => exact (sending_rx1).bind fun _ => ih

theorem sending_release : Sending good blocks (release w) := (sending_cs).bind fun _ => sending_clocks 1

theorem sending_waitIdleLoop {ms start : UInt32} (left : Nat) : Sending good blocks (waitIdleLoop w ms start left) := by
  induction left with
  | zero => exact sending_failure
  | succ left ih =>
    apply (sending_rx1).bind
    intro r
    split
    · exact sending_pure
    apply (sending_now).bind
    intro t
    split
    · exact sending_pure
    · refine Sending.bind (sending_signal ?_) fun _ => ih
      exact fun _ eq => nomatch eq

theorem sending_waitIdle {ms : UInt32} : Sending good blocks (waitIdle w ms) :=
  (sending_now).bind fun _ => (sending_fuel).bind fun left => sending_waitIdleLoop left

theorem sending_answer (k : Nat) (r : UInt8) : Sending good blocks (answer w k r) := by
  induction k generalizing r with
  | zero => exact sending_pure
  | succ k ih =>
    apply (sending_rx1).bind
    intro r'
    split
    · exact sending_pure
    · exact ih r'

theorem sending_sendCmd {cmd : UInt8} {arg : UInt32} {extra : Nat} (ok : good (frame cmd arg)) :
    Sending good blocks (sendCmd w cmd arg extra) :=
  (sending_tx ok).bind fun _ => (sending_answer 10 _).bind fun _ => (sending_rx).bind fun _ => sending_pure

theorem sending_tokenLoop {start : UInt32} (left : Nat) : Sending good blocks (tokenLoop w start left) := by
  induction left with
  | zero => exact sending_failure
  | succ left ih =>
    apply (sending_rx1).bind
    intro r
    split
    · exact sending_pure
    split
    · exact sending_pure
    apply (sending_now).bind
    intro t
    split
    · exact sending_pure
    · exact ih

theorem sending_readData {buf : List UInt8} {len : Nat} {check : Bool} :
    Sending good blocks (readData w buf len check) := by
  refine (sending_now).bind fun start => (sending_fuel).bind fun left => (sending_tokenLoop left).bind fun came => ?_
  split
  · refine (sending_rx).bind fun data => (sending_rx).bind fun crc => ?_
    split
    · refine Sending.bind (sending_setCard ?_) fun _ => sending_pure
      exact fun _ => rfl
    · exact sending_pure
  · exact sending_pure

theorem sending_readOnce {buf : List UInt8} (ok : ∀ c, c.blockAddressed = blocks → good (frame 17 (addrOf c lba))) :
    Sending good blocks (readOnce w lba buf) := by
  refine (sending_cs).bind fun _ => (sending_waitIdle).bind fun idle => ?_
  split
  · refine sending_card fun c same => (sending_sendCmd (ok c same)).bind fun r => ?_
    split
    · exact (sending_readData).bind fun r => (sending_release).bind fun _ => sending_pure
    · exact (sending_release).bind fun _ => sending_pure
  · exact (sending_release).bind fun _ => sending_pure

theorem sending_response (k : Nat) (r : UInt8) : Sending good blocks (response w k r) := by
  induction k generalizing r with
  | zero => exact sending_pure
  | succ k ih =>
    apply (sending_rx1).bind
    intro r'
    split
    · exact sending_pure
    · exact ih r'

theorem sending_writeData {buf : List UInt8} (ok : good buf) (short : ∀ f : List UInt8, f.length = 2 → good f) :
    Sending good blocks (writeData w buf) := by
  refine (sending_tx (short _ rfl)).bind fun _ => (sending_tx ok).bind fun _ => (sending_tx (short _ rfl)).bind fun _ => ?_
  apply (sending_response 16 _).bind
  intro resp
  split
  · exact sending_waitIdle
  · exact sending_pure

/-- The two tries of a read. -/
theorem sending_readTwice {buf : List UInt8} (ok : ∀ c, c.blockAddressed = blocks → good (frame 17 (addrOf c lba))) :
    Sending good blocks (do
      let r ← readOnce w lba buf
      if r.1 then return r
      else do
        setCard fun c => { c with retries := c.retries + 1 }
        readOnce w lba r.2) := by
  apply (sending_readOnce ok).bind
  intro r
  split
  · exact sending_pure
  · refine Sending.bind (sending_setCard ?_) fun _ => sending_readOnce ok
    exact fun _ => rfl

theorem sending_writeOnce {buf : List UInt8} (ok : ∀ c, c.blockAddressed = blocks → good (frame 24 (addrOf c lba)))
    (data : good buf) (short : ∀ f : List UInt8, f.length = 2 → good f) :
    Sending good blocks (do
      cs true
      if ← waitIdle w busyMs then
        if (← sendCmd w 24 (addrOf (← card) lba) 0).1 = 0 then
          let ok ← writeData w buf
          release w
          return ok
        else
          release w
          return false
      else
        release w
        return false) := by
  refine (sending_cs).bind fun _ => (sending_waitIdle).bind fun idle => ?_
  split
  · refine sending_card fun c same => (sending_sendCmd (ok c same)).bind fun r => ?_
    split
    · apply (sending_writeData data short).bind
      intro ok
      exact (sending_release).bind fun _ => sending_pure
    · exact (sending_release).bind fun _ => sending_pure
  · exact (sending_release).bind fun _ => sending_pure

/-- What a read or a write of a block sends to the card `c`, of `n` blocks, names that block. -/
def Named (c : SdCard) (n : Nat) (lba : UInt32) (s s' : State) : Prop :=
  ∃ new, s'.log = s.log ++ new ∧ ∀ f, .sent f ∈ new → Names c.blockAddressed n lba f

/-- The count of the card is that of its register, and every command for a block names that block of the card. -/
def Addressed (c : SdCard) : Prop :=
  ∃ n, specBlocks c.csd = some n ∧ c.blocks.toNat = n ∧ ∀ (w : World) (s : State), s.card = c →
    ∀ (lba : UInt32) (buf : List UInt8), buf.length = 512 →
      (Only (sdReadBlock w lba buf) s fun _ s' => Named c n lba s s') ∧
        Only (sdWriteBlock w lba buf) s fun _ s' => Named c n lba s s'

/-- The card has a block, and they can be counted and named in 32 bits. -/
def Countable (c : SdCard) : Prop :=
  ∃ n, specBlocks c.csd = some n ∧ 1 ≤ n ∧ n < 2 ^ 32 ∧ (c.blockAddressed = true ∨ n ≤ 2 ^ 23)

/-- What a successful initialisation leaves. -/
structure Counted (c : SdCard) : Prop where
  ready : c.ready = true
  whole : c.csd.length = 16
  count : c.blocks = capacity c.csd

theorem place_addrOf (addressing : c.blockAddressed = blocks) (near : blocks = true ∨ lba.toNat < 2 ^ 23) :
    place blocks (addrOf c lba).toNat = lba.toNat * 512 := by
  unfold place addrOf
  rw [addressing]
  cases blocks with
  | true => rfl
  | false =>
    have lt := near.resolve_left Bool.false_ne_true
    rw [if_neg Bool.false_ne_true, if_neg Bool.false_ne_true, UInt32.toNat_mul]
    show lba.toNat * 512 % 2 ^ 32 = _
    omega

theorem addressed_of_countable (counted : Counted c) (countable : Countable c) : Addressed c := by
  obtain ⟨n, spec, some_, few, near⟩ := countable
  have count : c.blocks.toNat = n := by
    rw [counted.count, capacity_spec counted.whole spec, Nat.mod_eq_of_lt few]
  refine ⟨n, spec, count, fun w s is lba buf long => ?_⟩
  have inside (has : c.has lba = true) : lba.toNat < n := by
    by_contra far
    have above : lba ≥ c.blocks := UInt32.le_iff_toNat_le.mpr (by omega)
    have nonzero : c.blocks ≠ 0 := by
      intro zero
      rw [zero] at count
      exact absurd (Nat.lt_of_lt_of_eq some_ count.symm) (by decide)
    unfold SdCard.has at has
    simp [nonzero, above] at has
  have good (has : c.has lba = true) {cmd : UInt8} (c' : SdCard) (same : c'.blockAddressed = c.blockAddressed) :
      Names c.blockAddressed n lba (frame cmd (addrOf c' lba)) := by
    intro _
    have lt := inside has
    refine ⟨lt, ?_⟩
    rw [argument_frame]
    exact place_addrOf same (near.imp_right fun le => by omega)
  have other {f : List UInt8} (ne : f.length ≠ 6) : Names c.blockAddressed n lba f := fun six => absurd six ne
  have nothing : Named c n lba s s := ⟨[], (List.append_nil _).symm, fun _ mem => nomatch mem⟩
  have addressing : s.card.blockAddressed = c.blockAddressed := by rw [is]
  constructor
  · change Only (card >>= _) s _
    intro a s' eq
    change (if s.card.has lba then _ else _ : Dev (Bool × List UInt8)) s = _ at eq
    rw [is] at eq
    split at eq
    · rename_i has
      exact (sending_readTwice (good has) s addressing a s' eq).2
    · cases eq
      exact nothing
  · change Only (card >>= _) s _
    intro a s' eq
    change (if s.card.has lba then _ else _ : Dev Bool) s = _ at eq
    rw [is] at eq
    split at eq
    · rename_i has
      have short : ∀ f : List UInt8, f.length = 2 → Names c.blockAddressed n lba f := fun f two => other (by omega)
      exact (sending_writeOnce (good has) (other (by omega)) short s addressing a s' eq).2
    · cases eq
      exact nothing

/-! ### A card that answers nothing but ones -/

/-- The line is high, so the card is never busy, and the clock ticks with each reading. -/
def high : World where
  answers := fun _ => 0xFF
  clock := ⟨fun n => n, fun _ _ le => le, fun t => ⟨t, le_rfl⟩, fun n => by omega⟩

theorem Slow.mem {s' : State} {e : Signal} (slow : Slow s s') (mem : e ∈ s.log) : e ∈ s'.log := by
  obtain ⟨new, eq, -⟩ := slow.log
  rw [eq]
  exact List.mem_append_left _ mem

theorem ends_waitIdle_high {ms : UInt32} :
    Ends (waitIdle high ms) s fun ok s' => ok = true ∧ s'.card = s.card := ⟨true, _, rfl, rfl, rfl⟩

theorem ends_sendCmd_sent {cmd : UInt8} {arg : UInt32} {extra : Nat} :
    Ends (sendCmd w cmd arg extra) s fun _ s' => Signal.sent (frame cmd arg) ∈ s'.log := by
  refine @Ends.bind _ _ _ _ _ (fun _ s' => Signal.sent (frame cmd arg) ∈ s'.log) _
    ⟨(), _, rfl, List.mem_append_right _ (List.mem_singleton_self _)⟩ fun _ s₁ h₁ => ?_
  refine (ends_answer 10 _).bind fun r s₂ h₂ => (ends_rx).bind fun _ s₃ h₃ => .pure ?_
  exact (h₂.slow.trans h₃.1.slow).mem h₁

theorem ends_readOnce_sent {buf : List UInt8} :
    Ends (readOnce high lba buf) s fun _ s' => Signal.sent (frame 17 (addrOf s.card lba)) ∈ s'.log := by
  refine @Ends.bind _ _ _ _ _ (fun _ s' => s'.card = s.card) _ ⟨(), _, rfl, rfl⟩ fun _ s₁ h₁ => ?_
  apply (ends_waitIdle_high).bind
  intro idle s₂ h₂
  obtain ⟨rfl, h₂⟩ := h₂
  rw [if_pos rfl]
  apply (ends_card).bind
  intro c s₃ h₃
  obtain ⟨rfl, rfl⟩ := h₃
  rw [h₂, h₁]
  apply (ends_sendCmd_sent).bind
  intro r s₄ h₄
  split
  · refine (ends_readData).bind fun r s₅ h₅ => (ends_release).bind fun _ s₆ h₆ => .pure ?_
    exact (h₅.1.trans h₆.1.slow).mem h₄
  · exact (ends_release).bind fun _ s₅ h₅ => .pure (h₅.1.slow.mem h₄)

/-- A read of a block that can be asked for sends its frame. -/
theorem ends_sdReadBlock_sent {buf : List UInt8} (has : s.card.has lba = true) :
    Ends (sdReadBlock high lba buf) s fun _ s' => Signal.sent (frame 17 (addrOf s.card lba)) ∈ s'.log := by
  apply (ends_card).bind
  intro c s₁ h₁
  obtain ⟨rfl, rfl⟩ := h₁
  rw [if_pos has]
  apply (ends_readOnce_sent).bind
  intro r s₂ h₂
  split
  · exact .pure h₂
  · refine (ends_setCard).bind fun _ s₃ h₃ => (ends_readOnce).mono fun r' s₄ h₄ => ?_
    exact (h₃.1.slow.trans h₄.1.2).mem h₂

theorem names_of_addressed {n : Nat} (named : ∀ (w : World) (s : State), s.card = c →
    ∀ (lba : UInt32) (buf : List UInt8), buf.length = 512 → Only (sdReadBlock w lba buf) s fun _ s' => Named c n lba s s')
    (has : c.has lba = true) : lba.toNat < n ∧ place c.blockAddressed (addrOf c lba).toNat = lba.toNat * 512 := by
  obtain ⟨r, s', eq, sent⟩ := @ends_sdReadBlock_sent ⟨c, 0, 0, false, []⟩ lba (List.replicate 512 0) has
  obtain ⟨new, log, all⟩ := named high ⟨c, 0, 0, false, []⟩ rfl lba _ List.length_replicate r s' eq
  rw [log] at sent
  have names := all _ sent rfl
  rwa [argument_frame] at names

theorem countable_of_addressed (counted : Counted c) (addressed : Addressed c) : Countable c := by
  obtain ⟨n, spec, count, named⟩ := addressed
  have names := fun {lba} => @names_of_addressed c lba n fun w s is lba buf long => (named w s is lba buf long).1
  have few : n < 2 ^ 32 := count ▸ c.blocks.toNat_lt
  have some_ : 1 ≤ n := by
    by_contra none_
    have zero : c.blocks = 0 := UInt32.toNat_inj.mp (by rw [count]; show n = 0; omega)
    have has : c.has 0 = true := by
      unfold SdCard.has
      rw [counted.ready, zero]
      rfl
    exact absurd (names has).1 (by omega)
  refine ⟨n, spec, some_, few, ?_⟩
  by_contra wraps
  obtain ⟨byte, far⟩ := not_or.mp wraps
  have has : c.has (2 ^ 23) = true := by
    unfold SdCard.has
    have inside : ¬(2 ^ 23 : UInt32) ≥ c.blocks := by
      intro above
      have := UInt32.le_iff_toNat_le.mp above
      rw [count] at this
      exact far this
    rw [counted.ready]
    simp [inside]
  have at_ := (names has).2
  rw [Bool.not_eq_true] at byte
  unfold place addrOf at at_
  rw [byte] at at_
  exact absurd at_ (by decide)

/-! ### Initialisation -/

theorem only_giveUp {e : SdError} : Only (giveUp w e) s fun ok s' => ok = true → Counted s'.card :=
  Only.after fun _ _ => Only.after fun _ _ => .pure fun no => nomatch no

theorem only_setCard {f : SdCard → SdCard} : Only (setCard f) s fun _ s' => s'.card = f s.card := by
  intro a s' eq
  cases eq
  rfl

theorem only_clocks (k : Nat) : Only (clocks w k) s fun _ s' => s'.card = s.card := by
  induction k generalizing s with
  | zero => exact .pure rfl
  | succ k ih =>
    refine Only.bind (?_ : Only (rx1 w) s fun _ s' => s'.card = s.card) fun _ s₁ h₁ a s₂ eq => ?_
    · intro a s' eq
      cases eq
      rfl
    · exact (ih a s₂ eq).trans h₁

theorem only_release : Only (release w) s fun _ s' => s'.card = s.card := by
  refine Only.bind (?_ : Only (cs false) s fun _ s' => s'.card = s.card) fun _ s₁ h₁ a s₂ eq => ?_
  · intro a s' eq
    cases eq
    rfl
  · exact (only_clocks 1 a s₂ eq).trans h₁

theorem only_readData {buf : List UInt8} {len : Nat} {check : Bool} :
    Only (readData w buf len check) s fun r _ => r.1 = true → r.2.length = len := by
  refine Only.after fun start _ => Only.after fun left _ => Only.after fun came _ => ?_
  split
  · refine Only.bind (?_ : Only (rx w len) _ fun data _ => data.length = len) fun data _ long => ?_
    · intro a s' eq
      cases eq
      rw [received, List.length_map, List.length_range]
    apply Only.after
    intro crc _
    split
    · exact Only.after fun _ _ => .pure fun no => nomatch no
    · exact .pure fun _ => long
  · exact .pure fun no => nomatch no

theorem only_initCsd : Only (initCsd w) s fun ok s' => ok = true → Counted s'.card := by
  apply Only.after
  intro r _
  split
  · exact only_giveUp
  refine Only.after fun c _ => (only_readData).bind fun r _ long => (only_setCard).bind fun _ s₁ h₁ => ?_
  split
  · rename_i came
    refine (only_setCard).bind fun _ s₂ h₂ => (only_release).bind fun _ s₃ h₃ => ?_
    refine Only.bind (?_ : Only (signal _) s₃ fun _ s' => s'.card = s₃.card) fun _ s₄ h₄ => ?_
    · intro a s' eq
      cases eq
      rfl
    refine (only_setCard).bind fun _ s₅ h₅ => .pure fun _ => ?_
    rw [h₅, h₄, h₃, h₂, h₁]
    exact ⟨rfl, long came, rfl⟩
  · exact only_giveUp

theorem only_initLength : Only (initLength w) s fun ok s' => ok = true → Counted s'.card := by
  apply Only.after
  intro c _
  split
  · exact only_initCsd
  apply Only.after
  intro r _
  split
  · exact only_giveUp
  · exact only_initCsd

theorem only_initOcr {v2 : Bool} : Only (initOcr w v2) s fun ok s' => ok = true → Counted s'.card := by
  apply Only.after
  intro _ _
  split
  · apply Only.after
    intro r _
    split
    · exact only_giveUp
    split
    · exact only_giveUp
    · exact Only.after fun _ _ => only_initLength
  · exact Only.after fun _ _ => only_initLength

theorem only_initReady {v2 : Bool} : Only (initReady w v2) s fun ok s' => ok = true → Counted s'.card := by
  refine Only.after fun _ _ => Only.after fun _ _ => Only.after fun _ _ => Only.after fun ready _ => ?_
  split
  · exact only_initOcr
  · exact only_giveUp

theorem only_initVersion : Only (initVersion w) s fun ok s' => ok = true → Counted s'.card := by
  apply Only.after
  intro r _
  split
  · exact only_giveUp
  split
  · exact only_initReady
  split
  · exact only_giveUp
  · exact only_initReady

theorem only_sdInit : Only (sdInit w) s fun ok s' => ok = true → Counted s'.card := by
  refine Only.after fun _ _ => Only.after fun _ _ => Only.after fun _ _ => Only.after fun _ _ => ?_
  refine Only.after fun _ _ => Only.after fun _ _ => Only.after fun _ _ => Only.after fun idle _ => ?_
  split
  · exact only_initVersion
  · exact only_giveUp

/-- Whatever the card answers: after an initialisation that succeeds, its blocks are counted and named right exactly
when there is one and their count, and the bytes of a card that is addressed by bytes, fit into 32 bits. -/
theorem sdInit_addressed_iff (w : World) (s : State) :
    Ends (sdInit w) s fun ok s' => ok = true → (Addressed s'.card ↔ Countable s'.card) := by
  obtain ⟨ok, s', eq, -⟩ := @ends_sdInit w s
  refine ⟨ok, s', eq, fun on => ?_⟩
  have counted := only_sdInit ok s' eq on
  exact ⟨countable_of_addressed counted, addressed_of_countable counted⟩

/-- What a card of the largest size that the second structure has answers to an initialisation, by the place of the
byte that is clocked in: its blocks are 2 TB. -/
def largest : World where
  answers := fun i => (List.replicate 16 (0xFF : UInt8) ++ [0x01] ++ List.replicate 6 0xFF ++ [0x01, 0, 0, 0x01, 0xAA] ++
    List.replicate 6 0xFF ++ [0x01] ++ List.replicate 6 0xFF ++ [0x01] ++ List.replicate 6 0xFF ++ [0] ++
    List.replicate 6 0xFF ++ [0, 0xC0, 0xFF, 0x80, 0] ++ List.replicate 6 0xFF ++ [0, 0xFE] ++
    [0x40, 0x0E, 0, 0x32, 0x5B, 0x59, 0, 0x3F, 0xFF, 0xFF, 0, 0, 0, 0, 0, 1]).getD i 0xFF
  clock := high.clock

/-- They are counted as none, and then no block is refused. -/
theorem not_all_addressed : ¬∀ (w : World) (s : State), Ends (sdInit w) s fun ok s' => ok = true → Addressed s'.card := by
  intro all
  obtain ⟨ok, s', eq, addressed⟩ := all largest ⟨.cleared, 0, 0, false, []⟩
  have ends : (sdInit largest ⟨.cleared, 0, 0, false, []⟩).map (fun r =>
      (r.1, specBlocks r.2.card.csd, r.2.card.blocks)) = some (true, some (2 ^ 32), 0) := by
    decide +kernel
  rw [eq] at ends
  obtain ⟨rfl, same⟩ := Prod.mk.inj (Option.some.inj ends)
  obtain ⟨size, zero⟩ := Prod.mk.inj same
  obtain ⟨n, spec, count, -⟩ := addressed rfl
  dsimp only at size zero
  obtain rfl := Option.some.inj (size.symm.trans spec)
  rw [zero] at count
  exact absurd count (by decide)

end RPCortex.Sd
