/-!
UTF-8, both ways. `Utf8.encode` writes characters as bytes; `Utf8.decode` reads bytes and, when
they are not well formed, says where the first bad sequence begins and how long its longest
plausible beginning is.
-/

namespace StylePrint.Text.Utf8

/-- The bytes of one character. -/
def encodeChar (c : Char) : List UInt8 :=
  let v := c.toNat
  if v < 0x80 then
    [UInt8.ofNat v]
  else if v < 0x800 then
    [UInt8.ofNat (0xC0 + v / 0x40), UInt8.ofNat (0x80 + v % 0x40)]
  else if v < 0x10000 then
    [UInt8.ofNat (0xE0 + v / 0x1000), UInt8.ofNat (0x80 + v / 0x40 % 0x40),
     UInt8.ofNat (0x80 + v % 0x40)]
  else
    [UInt8.ofNat (0xF0 + v / 0x40000), UInt8.ofNat (0x80 + v / 0x1000 % 0x40),
     UInt8.ofNat (0x80 + v / 0x40 % 0x40), UInt8.ofNat (0x80 + v % 0x40)]

/-- The bytes of a text. -/
def encode (cs : List Char) : List UInt8 :=
  cs.flatMap encodeChar

@[simp] theorem encode_nil : encode [] = [] := rfl

@[simp] theorem encode_cons (c : Char) (cs : List Char) :
    encode (c :: cs) = encodeChar c ++ encode cs := by
  simp [encode]

@[simp] theorem encode_append (s t : List Char) : encode (s ++ t) = encode s ++ encode t := by
  simp [encode]

/-- Why bytes are not UTF-8. -/
inductive Fault
  /-- From `index` on, `length` bytes begin a sequence that the next byte does not continue. -/
  | malformed (index : Nat) (length : Nat)
  /-- The input ends inside the sequence that begins at `index`. -/
  | cutShort (index : Nat)
  deriving DecidableEq, Repr

/-- The wording of a fault. -/
def Fault.message : Fault → String
  | .malformed index length =>
    "invalid utf-8 sequence of " ++ toString length ++ " bytes from index " ++ toString index
  | .cutShort index => "incomplete utf-8 byte sequence from index " ++ toString index

/-- Whether a byte continues a sequence. -/
def isContinuation (b : UInt8) : Bool :=
  0x80 ≤ b.toNat && b.toNat ≤ 0xBF

/-- What the first byte of a longer sequence promises: how many bytes follow, the bits it
contributes, and the range of the second byte that excludes overlong forms, surrogates and values
past the last code point. -/
structure Lead where
  following : Nat
  bits : Nat
  secondLow : Nat
  secondHigh : Nat
  deriving DecidableEq, Repr

/-- Reads a leading byte; `none` for a byte that begins no longer sequence. -/
def Lead.ofByte? (b : UInt8) : Option Lead :=
  let v := b.toNat
  if 0xC2 ≤ v ∧ v ≤ 0xDF then some ⟨1, v - 0xC0, 0x80, 0xBF⟩
  else if v = 0xE0 then some ⟨2, 0, 0xA0, 0xBF⟩
  else if v = 0xED then some ⟨2, 0xD, 0x80, 0x9F⟩
  else if 0xE1 ≤ v ∧ v ≤ 0xEF then some ⟨2, v - 0xE0, 0x80, 0xBF⟩
  else if v = 0xF0 then some ⟨3, 0, 0x90, 0xBF⟩
  else if v = 0xF4 then some ⟨3, 4, 0x80, 0x8F⟩
  else if 0xF1 ≤ v ∧ v ≤ 0xF3 then some ⟨3, v - 0xF0, 0x80, 0xBF⟩
  else none

/-- What stands at the front of the bytes. -/
inductive Front
  /-- A whole character, and the number of bytes it takes. -/
  | char (c : Char) (length : Nat)
  /-- The longest plausible beginning of a sequence, refused by the byte after it. -/
  | malformed (length : Nat)
  /-- A plausible beginning that the end of the input cuts off. -/
  | cutShort
  deriving DecidableEq, Repr

/-- Gathers the continuation bytes after the second one: `taken` bytes are read, `left` are due. -/
def gather (taken bits : Nat) : Nat → List UInt8 → Front
  | 0, _ => .char (Char.ofNat bits) taken
  | _ + 1, [] => .cutShort
  | left + 1, b :: rest =>
    if isContinuation b then gather (taken + 1) (bits * 0x40 + (b.toNat - 0x80)) left rest
    else .malformed taken

/-- Reads the character that begins with byte `b`. -/
def front (b : UInt8) (rest : List UInt8) : Front :=
  if b.toNat < 0x80 then .char (Char.ofNat b.toNat) 1
  else match Lead.ofByte? b with
    | none => .malformed 1
    | some lead =>
      match rest with
      | [] => .cutShort
      | second :: more =>
        if lead.secondLow ≤ second.toNat ∧ second.toNat ≤ lead.secondHigh then
          gather 2 (lead.bits * 0x40 + (second.toNat - 0x80)) (lead.following - 1) more
        else .malformed 1

/-- Reads characters from the bytes at `index` on, passing over the `skip` bytes that belong to
the character read last. -/
def decodeFrom (index skip : Nat) : List UInt8 → Except Fault (List Char)
  | [] => .ok []
  | b :: rest =>
    match skip with
    | skip + 1 => decodeFrom (index + 1) skip rest
    | 0 =>
      match front b rest with
      | .char c length => do
        let cs ← decodeFrom (index + 1) (length - 1) rest
        return c :: cs
      | .malformed length => .error (.malformed index length)
      | .cutShort => .error (.cutShort index)

/-- The characters that bytes stand for. -/
def decode (bytes : List UInt8) : Except Fault (List Char) :=
  decodeFrom 0 0 bytes

example : decode [0x61, 0xC3, 0xA9, 0xF0, 0x9F, 0x98, 0x80] = .ok ['a', 'é', '😀'] := by rfl
example : decode [0x61, 0xE2, 0x82] = .error (.cutShort 1) := by rfl
example : decode [0x61, 0xE2, 0x82, 0x61] = .error (.malformed 1 2) := by rfl
example : decode [0xED, 0xA0, 0x80] = .error (.malformed 0 1) := by rfl

end StylePrint.Text.Utf8
