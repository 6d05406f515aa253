import SwarmVm.Proofs.Heap.Layout

/-!
# What a written slot reads as

Each write of the heap is to one object slot or to one segment slot. Here is what the slot holds
afterwards: a header, a value, a link or an element reads back as it was written.

A value takes a tag, two flags and two words, and is determined by them (`Value.unpack_pack`). An
element slot has fifteen bits for the index of an object, which is enough for every object there can
be; a link has fourteen.

## Main results

* `Heap.value_setValue`, `Heap.header_setValue` — a value reads back, and the other flags stay
* `Heap.link_setLink`, `Heap.element?_setElement` — links and elements read back
-/

namespace SwarmVm

/-! ### Values as tags, flags and words -/

theorem Kind.ofTag?_tag (k : Kind) : Kind.ofTag? k.tag = some k := by
  cases k <;> rfl

theorem Kind.tag_lt (k : Kind) : k.tag < 8 := by
  cases k <;> decide

theorem Header.kind?_of_kind {header : Header} {k : Kind} (hk : header.kind = k) (ne : k ≠ .nil) :
    header.kind? = some k := by
  rw [Header.kind] at hk
  cases ho : header.kind? with
  | none => rw [ho] at hk; exact absurd hk.symm ne
  | some k' => rw [ho] at hk; exact congrArg some hk

theorem Value.tag_pack (v : Value) : v.pack.header.tag = v.kind.tag := by
  cases v <;> rfl

/-- A value is determined by its tag, its two flags and its two words. -/
theorem Value.unpack_pack (v : Value) (header : Header) (tag : header.tag = v.pack.header.tag)
    (flagA : header.flagA = v.pack.header.flagA) (flagB : header.flagB = v.pack.header.flagB) :
    Value.unpack header v.pack.word v.pack.aux = v := by
  have hk : header.kind? = some v.kind := by
    rw [Header.kind?, tag, Value.tag_pack, Kind.ofTag?_tag]
  rw [Value.unpack, hk]
  cases v with
  | nil => rfl
  | int i => simp [Value.kind, pack]
  | float x => rfl
  | string id => rfl
  | table t => simp only [Value.kind, flagA, flagB]; rfl
  | closure c =>
    obtain ⟨target, captured⟩ := c
    simp only [Value.kind, flagA, flagB]
    cases target <;> cases captured <;> rfl
  | userdata w =>
    have := w.toNat_lt
    simp only [Value.kind, pack, Value.userdata.injEq]
    apply UInt32.toNat_inj.1
    simp only [UInt16.toNat_ofNat', UInt32.toNat_ofNat']
    omega

namespace Heap

variable {h h' : Heap} {r r' : Ref} {s s' : SegRef}

/-! ### Objects -/

theorem writesIn_setHeader (h : Heap) (r : Ref) (header : Header) :
    WritesIn (objectOffset r) (objectOffset r + 5) h (h.setHeader r header) :=
  (writesIn_setByte h _ _).mono le_rfl (by omega)

theorem writesIn_setTableHead (h : Heap) (r : Ref) (head : SegRef) :
    WritesIn (objectOffset r) (objectOffset r + 5) h (h.setTableHead r head) :=
  (writesIn_setWord h _ _).mono (by omega) (by omega)

theorem writesIn_words (h : Heap) (r : Ref) (header : Header) (word aux : UInt16) :
    WritesIn (objectOffset r) (objectOffset r + 5) h
      (((h.setHeader r header).setWord (objectOffset r + 1) word).setWord
        (objectOffset r + 3) aux) :=
  ((writesIn_setHeader h r header).trans
    ((writesIn_setWord _ _ word).mono (by omega) (by omega))).trans
    ((writesIn_setWord _ _ aux).mono (by omega) (by omega))

theorem writesIn_setValue (h : Heap) (r : Ref) (v : Value) :
    WritesIn (objectOffset r) (objectOffset r + 5) h (h.setValue r v) :=
  writesIn_words h r _ _ _

theorem writesIn_initObject (h : Heap) (r : Ref) :
    WritesIn (objectOffset r) (objectOffset r + 5) h (h.initObject r) :=
  writesIn_words h r _ _ _

theorem header_setHeader (l : h.Layout) (hr : r.toNat < h.objectSlots) {d : Header}
    (tag : d.tag < 8) : (h.setHeader r d).header r = d := by
  have := l.objectOffset_le hr
  have := l.ordered
  have := l.inside
  rw [Heap.header, (writesIn_setHeader h r d).objectSlots, if_pos hr, setHeader, byte_setByte,
    if_pos ⟨rfl, by omega⟩, Header.ofByte_toByte d tag]

/-- The header and the words of an object that was written as a whole. -/
theorem object_words (l : h.Layout) (hr : r.toNat < h.objectSlots) {d : Header}
    (tag : d.tag < 8) (word aux : UInt16) :
    let h' := ((h.setHeader r d).setWord (objectOffset r + 1) word).setWord (objectOffset r + 3) aux
    h'.header r = d ∧ h'.word (objectOffset r + 1) = word
      ∧ h'.word (objectOffset r + 3) = aux := by
  have hle := l.objectOffset_le hr
  have hsize : objectOffset r + 5 ≤ h.size := hle.trans (l.ordered.trans l.inside)
  have w₁ := writesIn_setHeader h r d
  have w₂ := writesIn_setWord (h.setHeader r d) (objectOffset r + 1) word
  have w₃ := writesIn_setWord ((h.setHeader r d).setWord (objectOffset r + 1) word)
    (objectOffset r + 3) aux
  refine ⟨?_, ?_, ?_⟩
  · rw [header_eq_of_byte w₃.objectSlots fun _ => w₃.byte _ (by omega),
      header_eq_of_byte w₂.objectSlots fun _ => w₂.byte _ (by omega), header_setHeader l hr tag]
  · rw [w₃.word (by omega), word_setWord (by rw [w₁.size]; omega)]
  · rw [word_setWord (by rw [w₂.size, w₁.size]; omega)]

theorem header_setValue (l : h.Layout) (hr : r.toNat < h.objectSlots) (v : Value) :
    (h.setValue r v).header r = { v.pack.header with
      valid := (h.header r).valid
      permanent := (h.header r).permanent
      mark := (h.header r).mark } :=
  (object_words l hr (by rw [Value.tag_pack]; exact Kind.tag_lt _) v.pack.word v.pack.aux).1

/-- A value that was stored in an object reads back. -/
theorem value_setValue (l : h.Layout) (hv : h.isValid r = true) (v : Value) :
    (h.setValue r v).value r = v := by
  have hr := lt_objectSlots_of_isValid hv
  obtain ⟨hh, hw, ha⟩ := object_words l hr
    (d := { v.pack.header with
      valid := (h.header r).valid, permanent := (h.header r).permanent, mark := (h.header r).mark })
    (by rw [Value.tag_pack]; exact Kind.tag_lt _) v.pack.word v.pack.aux
  rw [setValue, value, hh, hw, ha]
  simp only [isValid] at hv
  simp only [hv, if_true]
  exact Value.unpack_pack v _ rfl rfl rfl

theorem isValid_setValue (l : h.Layout) (hr : r.toNat < h.objectSlots) (v : Value) (r' : Ref) :
    (h.setValue r v).isValid r' = h.isValid r' := by
  by_cases ne : r' = r
  · subst ne
    rw [isValid, header_setValue l hr, isValid]
  · rw [isValid, (writesIn_setValue h r v).header_of_ne ne, isValid]

theorem kind_setValue (l : h.Layout) (hr : r.toNat < h.objectSlots) (v : Value) :
    (h.setValue r v).kind r = v.kind := by
  rw [kind, header_setValue l hr, Header.kind, Header.kind?]
  simp only [Value.tag_pack, Kind.ofTag?_tag, Option.getD_some]

theorem header_initObject (l : h.Layout) (hr : r.toNat < h.objectSlots) :
    (h.initObject r).header r = Header.fresh :=
  (object_words l hr (by decide) 0 0).1

theorem value_of_isValid (hv : h.isValid r = true) : h.value r = Value.unpack (h.header r)
    (h.word (objectOffset r + 1)) (h.word (objectOffset r + 3)) := by
  rw [isValid] at hv
  rw [value]
  simp only [hv, if_true]

/-- Changing flags of a header leaves the words alone, so the value is that of the new header. -/
theorem value_setHeader (l : h.Layout) (hr : r.toNat < h.objectSlots) {header : Header}
    (tag : header.tag < 8) : (h.setHeader r header).value r
      = if header.valid then Value.unpack header (h.word (objectOffset r + 1))
          (h.word (objectOffset r + 3)) else .nil := by
  have w := writesIn_setByte h (objectOffset r) header.toByte
  rw [value, header_setHeader l hr tag, setHeader, w.word (by omega), w.word (by omega)]

theorem tag_header_lt (h : Heap) (r : Ref) : (h.header r).tag < 8 := by
  rw [header]
  split
  · exact Nat.mod_lt _ (by omega)
  · decide

/-- A table or array names its first segment, and is what its flags say. -/
theorem value_of_kind_table (hv : h.isValid r = true) (hk : h.kind r = .table) :
    h.value r = .table ⟨h.tableHead r, (h.header r).flagA, (h.header r).flagB⟩ := by
  have hk' : (h.header r).kind? = some .table := Header.kind?_of_kind hk (by simp)
  rw [isValid] at hv
  rw [value, tableHead, if_pos hk]
  simp only [hv, if_true, Value.unpack, hk']

theorem kind_of_value {v : Value} (hv : h.value r = v) (ne : v ≠ .nil) :
    h.isValid r = true ∧ h.kind r = v.kind := by
  rw [value] at hv
  by_cases valid : (h.header r).valid = true
  · refine ⟨valid, ?_⟩
    simp only [valid, if_true, Value.unpack] at hv
    rw [kind, Header.kind]
    split at hv <;> subst hv <;> simp_all [Value.kind]
  · simp only [valid, if_false, Bool.false_eq_true] at hv
    exact absurd hv.symm ne

/-! ### Segments -/

theorem writesIn_setLink (h : Heap) (s : SegRef) (link : Link) :
    WritesIn (h.segmentOffset s) (h.segmentOffset s + 22) h (h.setLink s link) :=
  (writesIn_setWord h _ _).mono (by rw [linkOffset_eq]; omega) (by rw [linkOffset_eq])

theorem writesIn_setElement (h : Heap) (s : SegRef) {k : Nat} (hk : k < slotsPerSegment)
    (e : Option Ref) :
    WritesIn (h.segmentOffset s) (h.segmentOffset s + 22) h (h.setElement s k e) := by
  have : k < 10 := hk
  exact (writesIn_setWord h _ _).mono (by rw [slotOffset_eq]; omega)
    (by rw [slotOffset_eq]; omega)

theorem Link.ofWord_toWord (link : Link) (hn : link.next.toNat < Link.range) :
    Link.ofWord link.toWord = link := by
  obtain ⟨valid, mark, next⟩ := link
  have hn : next.toNat < 16384 := hn
  have hw : (Link.toWord ⟨valid, mark, next⟩).toNat
      = next.toNat + 16384 * mark.toNat + 32768 * valid.toNat := by
    have := valid.toNat_le
    have := mark.toNat_le
    simp only [Link.toWord, Link.range, UInt16.toNat_ofNat']
    omega
  rw [Link.ofWord, hw, Link.mk.injEq]
  refine ⟨?_, ?_, UInt16.toNat_inj.1 ?_⟩
  · cases valid <;> cases mark <;> simp [Link.range] <;> omega
  · cases valid <;> cases mark <;> simp [Link.range] <;> omega
  · have := valid.toNat_le
    simp only [Link.range, UInt16.toNat_ofNat']
    omega

/-- A link reads back when its segment can be named in fourteen bits. -/
theorem link_setLink (l : h.Layout) (hs : s.toNat < h.segmentSlots) {k : Link}
    (hn : k.next.toNat < Link.range) : (h.setLink s k).link s = k := by
  have w := writesIn_setLink h s k
  have := (l.segmentOffset_bounds hs).2
  rw [Heap.link, w.segmentSlots, if_pos hs, linkOffset_eq, w.segmentOffset, setLink, linkOffset_eq,
    word_setWord (by omega), Link.ofWord_toWord k hn]

theorem element?_setLink (l : h.Layout) (hs : s.toNat < h.segmentSlots) (link : Link)
    (hs' : s'.toNat < h.segmentSlots) {k : Nat} (hk : k < slotsPerSegment) :
    (h.setLink s link).element? s' k = h.element? s' k := by
  have hk' : k < 10 := hk
  by_cases ne : s' = s
  · subst ne
    have w := writesIn_setWord h (h.linkOffset s') link.toWord
    rw [element?, element?, slotOffset_eq, slotOffset_eq, setLink, w.segmentOffset,
      w.word (by rw [linkOffset_eq]; omega)]
  · exact WritesIn.element?_of_ne l hs hs' ne (writesIn_setLink h s link) hk

theorem link_setElement (l : h.Layout) (hs : s.toNat < h.segmentSlots) {k : Nat}
    (hk : k < slotsPerSegment) (e : Option Ref) (s' : SegRef) :
    (h.setElement s k e).link s' = h.link s' := by
  have hk' : k < 10 := hk
  by_cases ne : s' = s
  · subst ne
    have w : WritesIn (h.slotOffset s' k) (h.slotOffset s' k + 2) h (h.setElement s' k e) :=
      writesIn_setWord h _ _
    rw [link, link, w.segmentSlots, linkOffset_eq, linkOffset_eq, w.segmentOffset,
      w.word (by rw [slotOffset_eq]; omega)]
  · exact WritesIn.link_of_ne l hs ne (writesIn_setElement h s hk e)

/-- An element reads back when its index has fifteen bits, and no other slot is written. -/
theorem element?_setElement (l : h.Layout) (hs : s.toNat < h.segmentSlots) {k k' : Nat}
    (hk : k < slotsPerSegment) (e : Option Ref) :
    (h.setElement s k e).element? s k' = if k' = k then
      e.map fun r => UInt16.ofNat (r.toNat % elementRange) else h.element? s k' := by
  have hk₁ : k < 10 := hk
  have w : WritesIn (h.slotOffset s k) (h.slotOffset s k + 2) h (h.setElement s k e) :=
    writesIn_setWord h _ _
  have := (l.segmentOffset_bounds hs).2
  by_cases ne : k' = k
  · subst ne
    rw [if_pos rfl, element?, slotOffset_eq, w.segmentOffset, ← slotOffset_eq]
    cases e with
    | none =>
      rw [show h.setElement s k' none = h.setWord (h.slotOffset s k') 0 from rfl,
        word_setWord (by rw [slotOffset_eq]; omega)]
      rfl
    | some r =>
      rw [show h.setElement s k' (some r) = h.setWord (h.slotOffset s k')
        (UInt16.ofNat (elementRange + r.toNat % elementRange)) from rfl,
        word_setWord (by rw [slotOffset_eq]; omega)]
      have hw : (UInt16.ofNat (elementRange + r.toNat % elementRange)).toNat
          = elementRange + r.toNat % elementRange := by
        simp only [elementRange, UInt16.toNat_ofNat']
        omega
      simp only [hw, Option.map_some, Nat.le_add_right, if_true, Nat.add_sub_cancel_left]
  · rw [if_neg ne, element?, element?, slotOffset_eq, slotOffset_eq, w.segmentOffset,
      w.word (by rw [slotOffset_eq]; omega)]

theorem next_lt (h : Heap) (s : SegRef) : (h.next s).toNat < Link.range := by
  rw [next, link]
  split
  · simp only [Link.ofWord, Link.range, UInt16.toNat_ofNat']
    omega
  · decide

theorem Layout.lt_elementRange (l : h.Layout) (hr : r.toNat < h.objectSlots) :
    r.toNat < elementRange := by
  have := l.objectSlots_le
  rw [elementRange]
  omega

theorem Layout.lt_range (l : h.Layout) (hs : s.toNat < h.segmentSlots) :
    s.toNat < Link.range := by
  have := l.segmentSlots_le
  simp only [Link.range]
  omega

end Heap

end SwarmVm
