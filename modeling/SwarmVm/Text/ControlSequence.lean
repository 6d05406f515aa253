/-!
# Control sequences

Text that goes to a file and not to a terminal is written without what only a terminal obeys:
escape sequences, control strings, and the single controls other than blanks. The reader here
knows the shapes of the sequences and goes through the text byte by byte.

A blank control, such as a line break, is obeyed by a terminal even in the middle of an escape or
control sequence. It is kept, and the text behind it is shown again. The sequence that it cut in
two is not forgotten: it goes on with the next byte that is not shown.

## Main definitions

* `Context.next?`, `Context.shows` — what a byte does to the reader, and whether it is text
* `Reader.step` — one byte read
* `withoutControls` — a text without its control sequences
-/

namespace SwarmVm

namespace Text

/-- What the reader is in the middle of. -/
inductive Context where
  /-- Plain text. -/
  | text
  /-- A character of which `left` bytes are still to come. -/
  | character (left : Nat)
  /-- A sequence of which only the escape was read. -/
  | escape
  /-- An escape sequence that lacks its final byte. -/
  | escapeFinal
  /-- A control sequence, which ends with a letter or the like. -/
  | control
  /-- A device control string before its parameters. -/
  | device
  /-- The parameters of a device control string. -/
  | deviceParameters
  /-- What a device control string has between its parameters and its text. -/
  | deviceIntermediate
  /-- A string that is closed by a string terminator. -/
  | string
  /-- A command to the operating system, which is closed by a bell. -/
  | command
deriving DecidableEq, Repr

namespace Context

/-- The byte lies between two others. -/
def within (low high b : UInt8) : Bool := low ≤ b && b ≤ high

/-- The controls that move on in the text: tabulator, line feed, form feed and carriage return. -/
def isBlankControl (b : UInt8) : Bool := b == 0x09 || b == 0x0a || b == 0x0c || b == 0x0d

/-- Where the byte after an escape leads. -/
def afterEscape? (b : UInt8) : Option Context :=
  if within 0x20 0x2f b then some .escapeFinal
  else if b == 0x5b then some .control
  else if b == 0x5d then some .command
  else if b == 0x50 then some .device
  else if b == 0x58 || b == 0x5e || b == 0x5f then some .string
  else if within 0x30 0x7e b then some .text
  else none

/-- Where a byte leads from a context, unless it leads nowhere. -/
def inside? (c : Context) (b : UInt8) : Option Context :=
  match c with
  | text =>
    if within 0xc2 0xdf b then some (.character 1)
    else if within 0xe0 0xef b then some (.character 2)
    else if within 0xf0 0xf4 b then some (.character 3)
    else none
  | character left => some (if left ≤ 1 then .text else .character (left - 1))
  | escape => afterEscape? b
  | escapeFinal => if within 0x30 0x7e b then some .text else none
  | control => if within 0x40 0x7e b then some .text else none
  | device =>
    if within 0x20 0x2f b then some .deviceIntermediate
    else if within 0x30 0x3f b then some .deviceParameters
    else if within 0x40 0x7e b then some .string
    else none
  | deviceParameters =>
    if within 0x20 0x2f b then some .deviceIntermediate
    else if within 0x3c 0x7e b then some .string
    else none
  | deviceIntermediate => if within 0x30 0x7e b then some .string else none
  | string => if b == 0x9c then some .text else none
  | command => if b == 0x07 then some .text else none

/-- Where a byte leads from a context. Two controls end every sequence, and an escape begins a new
one. -/
def next? (c : Context) (b : UInt8) : Option Context :=
  if b == 0x18 || b == 0x1a then some .text
  else if b == 0x1b then some .escape
  else c.inside? b

/-- A byte in a context is text to be shown. -/
def shows (c : Context) (b : UInt8) : Bool :=
  match c with
  | text => within 0x20 0x7e b || within 0xc2 0xf4 b || isBlankControl b
  | character _ => true
  | escape | escapeFinal | control => isBlankControl b
  | _ => false

end Context

/-- The reader of a text. -/
structure Reader where
  /-- What it is in the middle of. -/
  context : Context := .text
  /-- The byte before was shown, so that the next one is read as text whatever the context. -/
  showing : Bool := false
deriving DecidableEq, Repr

namespace Reader

/-- The context in which the next byte is read. -/
def reading (r : Reader) : Context :=
  match r.context with
  | .character left => .character left
  | c => if r.showing then .text else c

/-- Read a byte, and tell whether it is shown. The first byte that is not shown after others that
were is also a byte of the context that they left open. -/
def step (r : Reader) (b : UInt8) : Reader × Bool :=
  let context := (r.reading.next? b).getD r.context
  if r.reading.shows b then (⟨context, true⟩, true)
  else if r.showing then (⟨(context.next? b).getD context, false⟩, false)
  else (⟨context, false⟩, false)

/-- The bytes that are shown. -/
def shown (r : Reader) : List UInt8 → List UInt8
  | [] => []
  | b :: rest =>
    match r.step b with
    | (r, true) => b :: r.shown rest
    | (r, false) => r.shown rest

end Reader

/-- A text without its control sequences. Characters are kept or lost as a whole. -/
def withoutControls (s : String) : String :=
  let shown := Reader.shown {} s.toUTF8.data.toList
  (String.fromUTF8? ⟨shown.toArray⟩).getD ""

end Text

end SwarmVm
