import SwarmVm.Proofs.Heap.Slots
import SwarmVm.Wire

/-!
# Messages are read back as they were written

The writer and the reader of messages know three layouts, and neither of them is made from the
other. What ties them together is the front of a byte string: the reader takes a message from a
front of the length that its kind has, and looks at nothing behind it (`Wire.Reads`). The bytes of a
message are such a front for what is left of the message on the wire, and every message that is read
at all has one.

So a message that is cut short is not read as another one. If a part of its bytes were enough for
some message, the whole of them would give that message too, and it would have the length of the
whole.

## Main definitions

* `Value.Sendable`, `Value.flat` — values that can be sent, and what is left of them
* `MessageKind.wireLength` — the length of a message
* `Wire.Reads` — the front of a byte string that is read as a message

## Main results

* `Wire.reads_encode?` — the bytes of a message are read as the message
* `Wire.exists_reads_of_decode?` — what is read has a front of its own
* `Wire.message_round_trip` — writing and reading
-/

namespace SwarmVm

/-- The value can be sent: it is neither a table nor a word of the embedder. -/
def Value.Sendable (v : Value) : Prop := v.kind ≠ .table ∧ v.kind ≠ .userdata

/-- What is left of a value that is sent. A closure leaves its captured record behind. -/
def Value.flat : Value → Value
  | .closure c => .closure ⟨c.target, none⟩
  | v => v

/-- The length of a message on the wire. -/
def MessageKind.wireLength : MessageKind → Nat
  | broadcast => 8
  | stigmergyPut | stigmergyQuery => 9
  | swarmList | swarmJoin | swarmLeave => 6

namespace Message

/-- The payload of the message can be sent, if it has one. -/
def Sendable (m : Message Value) : Prop := ∀ v, m.payload? = some v → v.Sendable

/-- What is left of a message that is sent. -/
def flat : Message Value → Message Value
  | broadcast robot topic v => .broadcast robot topic v.flat
  | stigmergy op robot key v clock => .stigmergy op robot key v.flat clock
  | swarm op robot clock swarms => .swarm op robot clock swarms

@[simp] theorem kind_flat (m : Message Value) : m.flat.kind = m.kind := by
  cases m with
  | broadcast | swarm => rfl
  | stigmergy op => cases op <;> rfl

@[simp] theorem sendable_broadcast {robot : RobotId} {topic : NameId} {v : Value} :
    Sendable (.broadcast robot topic v) ↔ v.Sendable := by
  simp [Sendable, payload?]

@[simp] theorem sendable_stigmergy {op : StigmergyOp} {robot : RobotId} {key : NameId} {v : Value}
    {clock : UInt8} : Sendable (.stigmergy op robot key v clock) ↔ v.Sendable := by
  simp [Sendable, payload?]

@[simp] theorem sendable_swarm {op : SwarmOp} {robot : RobotId} {clock : UInt16} {swarms : UInt8} :
    Sendable (.swarm op robot clock swarms) := by
  simp [Sendable, payload?]

end Message

namespace Wire

variable {v : Value} {m : Message Value} {bytes front : List UInt8}

/-! ### Payloads -/

theorem decodeValue_flat (kind : Kind) (host : Bool) (w : UInt16) :
    decodeValue (Header.toByte { tag := kind.tag, flagA := host }) (Word.high w) (Word.low w)
      = match kind with
        | .nil => some .nil
        | .int => some (.int w.toInt16)
        | .float => some (.float ⟨w⟩)
        | .string => some (.string w)
        | .closure => some (.closure (if host then Closure.ofHost w else Closure.ofCode w))
        | .table | .userdata => none := by
  rw [decodeValue, Header.ofByte_toByte _ (Kind.tag_lt kind), Word.ofBytes_low_high]
  cases kind <;> rfl

theorem isSome_encodeValue?_iff : (encodeValue? v).isSome ↔ v.Sendable := by
  cases v with
  | closure c =>
    obtain ⟨target, captured⟩ := c
    cases target <;> simp [encodeValue?, Value.Sendable, Value.kind]
  | _ => simp [encodeValue?, Value.Sendable, Value.kind]

/-- A payload has three bytes, from which it is read back. -/
theorem decodeValue_of_encodeValue? (he : encodeValue? v = some bytes) :
    ∃ kind high low, bytes = [kind, high, low] ∧ decodeValue kind high low = some v.flat := by
  cases v with
  | nil => exact ⟨_, _, _, (Option.some.inj he).symm, decodeValue_flat .nil false 0⟩
  | int i =>
    have hread := decodeValue_flat .int false i.toUInt16
    exact ⟨_, _, _, (Option.some.inj he).symm, hread⟩
  | float x => exact ⟨_, _, _, (Option.some.inj he).symm, decodeValue_flat .float false x.bits⟩
  | string id => exact ⟨_, _, _, (Option.some.inj he).symm, decodeValue_flat .string false id⟩
  | closure c =>
    obtain ⟨target, captured⟩ := c
    cases target with
    | code address =>
      exact ⟨_, _, _, (Option.some.inj he).symm, decodeValue_flat .closure false address⟩
    | host id => exact ⟨_, _, _, (Option.some.inj he).symm, decodeValue_flat .closure true id⟩
  | table t => cases he
  | userdata w => cases he

/-- Whatever is read as a payload can be sent again, and loses nothing. -/
theorem sendable_of_decodeValue {kind high low : UInt8} (hd : decodeValue kind high low = some v) :
    v.Sendable ∧ v.flat = v := by
  rw [decodeValue] at hd
  split at hd
  case h_5 =>
    rw [Option.some.injEq] at hd
    subst hd
    refine ⟨⟨by simp [Value.kind], by simp [Value.kind]⟩, ?_⟩
    split <;> rfl
  all_goals
    simp only [Option.some.injEq, reduceCtorEq] at hd
    try subst hd
    try exact ⟨⟨by simp [Value.kind], by simp [Value.kind]⟩, rfl⟩

/-! ### Messages -/

/-- The first byte tells the kind. -/
theorem decode?_tag_cons (kind : MessageKind) (fields : List UInt8) :
    decode? (UInt8.ofNat kind.tag :: fields) = decodeFields? kind fields := by
  cases kind <;> rfl

theorem isSome_encode?_iff : (encode? m).isSome ↔ m.Sendable := by
  cases m with
  | broadcast | stigmergy => simp [encode?, isSome_encodeValue?_iff]
  | swarm => simp [encode?]

/-- The bytes `front` have the length of the message, and a byte string that starts with them is
read as the message, whatever follows. -/
structure Reads (front : List UInt8) (m : Message Value) : Prop where
  /-- The length is that of the message. -/
  length : front.length = m.kind.wireLength
  /-- The message is read. -/
  decode : ∀ rest, decode? (front ++ rest) = some m

/-- A message is read back from its bytes. -/
theorem reads_encode? (he : encode? m = some bytes) : Reads bytes m.flat := by
  cases m with
  | broadcast robot topic v =>
    obtain ⟨flat, hf, rfl⟩ := Option.map_eq_some_iff.1 he
    obtain ⟨kind, high, low, rfl, hd⟩ := decodeValue_of_encodeValue? hf
    refine ⟨rfl, fun rest => ?_⟩
    simp only [word, List.cons_append, decode?_tag_cons]
    simp [decodeFields?, Message.kind, Message.flat, hd]
  | stigmergy op robot key v clock =>
    obtain ⟨flat, hf, rfl⟩ := Option.map_eq_some_iff.1 he
    obtain ⟨kind, high, low, rfl, hd⟩ := decodeValue_of_encodeValue? hf
    cases op <;> refine ⟨rfl, fun rest => ?_⟩ <;>
      simp only [word, List.cons_append, decode?_tag_cons] <;>
      simp [decodeFields?, Message.kind, Message.flat, hd]
  | swarm op robot clock swarms =>
    obtain rfl := Option.some.inj he
    cases op <;> refine ⟨rfl, fun rest => ?_⟩ <;>
      simp only [word, List.cons_append, decode?_tag_cons] <;>
      simp [decodeFields?, Message.kind, Message.flat]

/-- What is read has a front of its own, can be sent again, and loses nothing. -/
theorem exists_reads_of_decode? (hd : decode? bytes = some m) :
    ∃ front rest, bytes = front ++ rest ∧ Reads front m ∧ m.Sendable ∧ m.flat = m := by
  cases bytes with
  | nil => cases hd
  | cons tag fields =>
    rw [decode?, Option.bind_eq_some_iff] at hd
    obtain ⟨kind, hk, hd⟩ := hd
    -- the fields after the tag are read as far as the layout of the kind goes
    have reads : ∀ {front : List UInt8} {m : Message Value},
        1 + front.length = m.kind.wireLength →
        (∀ rest, decodeFields? kind (front ++ rest) = some m) → Reads (tag :: front) m := by
      intro front m hlength hfields
      refine ⟨by simpa [Nat.add_comm] using hlength, fun rest => ?_⟩
      rw [List.cons_append, decode?, hk, Option.bind_some, hfields rest]
    unfold decodeFields? at hd
    split at hd
    · next r1 r0 w1 w0 fields =>
      split at hd
      case h_1 k v1 v0 rest =>
        obtain ⟨v, hv, rfl⟩ := Option.map_eq_some_iff.1 hd
        obtain ⟨hs, hf⟩ := sendable_of_decodeValue hv
        exact ⟨[tag, r1, r0, w1, w0, k, v1, v0], rest, rfl,
          reads rfl fun _ => by simp [decodeFields?, hv], Message.sendable_broadcast.2 hs,
          by rw [Message.flat, hf]⟩
      case h_2 k v1 v0 clock rest | h_3 k v1 v0 clock rest =>
        obtain ⟨v, hv, rfl⟩ := Option.map_eq_some_iff.1 hd
        obtain ⟨hs, hf⟩ := sendable_of_decodeValue hv
        exact ⟨[tag, r1, r0, w1, w0, k, v1, v0, clock], rest, rfl,
          reads rfl fun _ => by simp [decodeFields?, hv], Message.sendable_stigmergy.2 hs,
          by rw [Message.flat, hf]⟩
      case h_4 swarms rest | h_5 swarms rest | h_6 swarms rest =>
        obtain rfl := Option.some.inj hd
        exact ⟨[tag, r1, r0, w1, w0, swarms], rest, rfl, reads rfl fun _ => rfl,
          Message.sendable_swarm, rfl⟩
      case h_7 => cases hd
    · cases hd

/-- No message is read from bytes that are cut short. -/
theorem Reads.decode?_of_lt (hr : Reads front m) {cut : List UInt8} (hcut : cut <+: front)
    (hlt : cut.length < front.length) : decode? cut = none := by
  obtain ⟨tail, rfl⟩ := hcut
  cases hd : decode? cut with
  | none => rfl
  | some m' =>
    obtain ⟨front', rest, rfl, hr', -, -⟩ := exists_reads_of_decode? hd
    -- the whole front is read as both messages
    have hwhole := hr.decode []
    rw [List.append_nil, List.append_assoc, hr'.decode, Option.some.injEq] at hwhole
    have hlength := hr'.length
    have hlength' := hr.length
    rw [hwhole] at hlength
    simp only [List.length_append] at hlt hlength'
    omega

/-! ### Buffers -/

/-- A message is written if it has bytes and these fit. -/
theorem writeInto_of_le {buffer : List UInt8} (he : encode? m = some bytes)
    (hroom : bytes.length ≤ buffer.length) :
    writeInto m buffer = (some bytes.length, bytes ++ buffer.drop bytes.length) := by
  simp [writeInto, writeInto?, he, hroom]

/-- What became of a message: it is not written and the buffer is the same, or its bytes are the
front of the buffer. -/
theorem writeInto_cases (m : Message Value) (buffer : List UInt8) :
    (writeInto m buffer = (none, buffer) ∧ ¬ (m.Sendable ∧ m.kind.wireLength ≤ buffer.length))
    ∨ ∃ bytes, encode? m = some bytes ∧ bytes.length ≤ buffer.length
      ∧ writeInto m buffer = (some bytes.length, bytes ++ buffer.drop bytes.length)
      ∧ m.Sendable ∧ m.kind.wireLength ≤ buffer.length := by
  cases he : encode? m with
  | none =>
    have hs : ¬ m.Sendable := by simp [← isSome_encode?_iff, he]
    exact .inl ⟨by simp [writeInto, writeInto?, he], fun h => hs h.1⟩
  | some bytes =>
    have hs : m.Sendable := by simp [← isSome_encode?_iff, he]
    have hlength := (reads_encode? he).length
    rw [Message.kind_flat] at hlength
    by_cases hroom : bytes.length ≤ buffer.length
    · exact .inr ⟨bytes, rfl, hroom, writeInto_of_le he hroom, hs, by omega⟩
    · exact .inl ⟨by simp [writeInto, writeInto?, he, hroom], fun h => by omega⟩

/-- **Messages go through buffers.** A message is written exactly if its payload is neither a table
nor a word of the embedder and the buffer has room for the eight, nine or six bytes of its layout.
If it is written, all that changes in the buffer is these bytes; any byte string that starts with
them is read as the message, less the record that a closure has captured, and no shorter part of
them is read as a message at all. If it is not written, the buffer does not change. And what has
been read from any byte string is read back as it is when it is written again. -/
theorem message_round_trip (m : Message Value) (buffer : List UInt8) :
    ((writeInto m buffer).1.isSome ↔ m.Sendable ∧ m.kind.wireLength ≤ buffer.length)
    ∧ (∀ length written, writeInto m buffer = (some length, written) →
      length = m.kind.wireLength ∧ written.length = buffer.length
      ∧ written.drop length = buffer.drop length
      ∧ (∀ bytes, written.take length <+: bytes → decode? bytes = some m.flat)
      ∧ ∀ cut, cut <+: written.take length → cut ≠ written.take length → decode? cut = none)
    ∧ (∀ written, writeInto m buffer = (none, written) → written = buffer)
    ∧ ∀ bytes m', decode? bytes = some m' → m'.kind.wireLength ≤ buffer.length →
      ∃ length written, writeInto m' buffer = (some length, written)
        ∧ decode? (written.take length) = some m' := by
  refine ⟨?_, fun length written hw => ?_, fun written hw => ?_, fun bytes m' hd hroom => ?_⟩
  · rcases writeInto_cases m buffer with ⟨hw, hnot⟩ | ⟨bytes, -, -, hw, hyes⟩
    · simp [hw, hnot]
    · simp [hw, hyes]
  · rcases writeInto_cases m buffer with ⟨hw', -⟩ | ⟨bytes, he, hroom, hw', -⟩
    · simp [hw'] at hw
    · obtain ⟨rfl, rfl⟩ : bytes.length = length ∧ bytes ++ buffer.drop bytes.length = written := by
        simpa [hw'] using hw
      have hr := reads_encode? he
      rw [List.take_left, List.drop_left]
      refine ⟨hr.length.trans (by rw [Message.kind_flat]), by simp; omega, rfl, ?_, ?_⟩
      · rintro _ ⟨rest, rfl⟩
        exact hr.decode rest
      · intro cut hcut hne
        exact hr.decode?_of_lt hcut (hcut.length_le.lt_of_ne fun h => hne (hcut.eq_of_length h))
  · rcases writeInto_cases m buffer with ⟨hw', -⟩ | ⟨bytes, -, -, hw', -⟩
    · exact (congrArg Prod.snd (hw'.symm.trans hw)).symm
    · simp [hw'] at hw
  · obtain ⟨-, -, -, -, hs, hflat⟩ := exists_reads_of_decode? hd
    obtain ⟨bytes', he⟩ := Option.isSome_iff_exists.1 (isSome_encode?_iff.2 hs)
    have hr := reads_encode? he
    rw [hflat] at hr
    refine ⟨_, _, writeInto_of_le he (hr.length.trans_le hroom), ?_⟩
    rw [List.take_left, ← List.append_nil bytes']
    exact hr.decode []

example : writeInto (.stigmergy .put 0x0102 0x0304 (.int 0x0506) 7) (List.replicate 10 0xaa)
    = (some 9, [2, 1, 2, 3, 4, 1, 5, 6, 7, 0xaa]) := by decide

end Wire

end SwarmVm
