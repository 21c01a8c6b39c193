namespace Pearl.Text.Utf8

inductive Reason where
  | invalidStart
  | invalidContinuation
  | unexpectedEnd
  deriving DecidableEq, Repr

def Reason.message : Reason → String
  | .invalidStart => "invalid start byte"
  | .invalidContinuation => "invalid continuation byte"
  | .unexpectedEnd => "unexpected end of data"

/-- What stands at the head of a byte sequence: a character, or the reason why there is none.
`extra` bytes after the first belong to it. -/
structure Head where
  outcome : Except Reason Char
  extra : Nat

/-- What a byte that starts a longer character asks for: the number of bytes to follow, the
bounds of the first of these, and the bits it contributes itself. -/
structure Lead where
  following : Nat
  low : UInt8
  high : UInt8
  bits : Nat

/-- The bytes that may start a character of two to four bytes. Overlong forms, surrogates and
code points beyond the last are kept out by the bounds of the second byte. -/
def lead? (b : UInt8) : Option Lead :=
  if b < 0xC2 then none
  else if b < 0xE0 then some ⟨1, 0x80, 0xBF, b.toNat - 0xC0⟩
  else if b = 0xE0 then some ⟨2, 0xA0, 0xBF, 0⟩
  else if b = 0xED then some ⟨2, 0x80, 0x9F, 0xD⟩
  else if b < 0xF0 then some ⟨2, 0x80, 0xBF, b.toNat - 0xE0⟩
  else if b = 0xF0 then some ⟨3, 0x90, 0xBF, 0⟩
  else if b < 0xF4 then some ⟨3, 0x80, 0xBF, b.toNat - 0xF0⟩
  else if b = 0xF4 then some ⟨3, 0x80, 0x8F, 4⟩
  else none

/-- Reads the bytes that complete a character whose bits so far are `bits`, `taken` of them
having been read. -/
def complete (bits taken : Nat) : Nat → UInt8 → UInt8 → List UInt8 → Head
  | 0, _, _, _ => ⟨.ok (Char.ofNat bits), taken⟩
  | _ + 1, _, _, [] => ⟨.error .unexpectedEnd, taken⟩
  | n + 1, low, high, b :: bs =>
    if low ≤ b && b ≤ high then
      complete (bits * 64 + (b.toNat - 0x80)) (taken + 1) n 0x80 0xBF bs
    else ⟨.error .invalidContinuation, taken⟩

def head (b : UInt8) (bs : List UInt8) : Head :=
  if b < 0x80 then ⟨.ok (Char.ofNat b.toNat), 0⟩
  else match lead? b with
    | none => ⟨.error .invalidStart, 0⟩
    | some l => complete l.bits 0 l.following l.low l.high bs

/-- The first bytes of a sequence that are no UTF-8: `count` bytes from `position` on, of which
the first is `byte`. -/
structure Fault where
  position : Nat
  count : Nat
  byte : UInt8
  reason : Reason
  deriving DecidableEq, Repr

def decodeFrom (position : Nat) : List UInt8 → Except Fault (List Char)
  | [] => .ok []
  | b :: bs =>
    match head b bs with
    | ⟨.ok c, extra⟩ => (decodeFrom (position + 1 + extra) (bs.drop extra)).map (c :: ·)
    | ⟨.error r, extra⟩ => .error ⟨position, extra + 1, b, r⟩
termination_by bs => bs.length
decreasing_by simp only [List.length_cons, List.length_drop]; omega

/-- The text of the bytes, or the first fault in them. -/
def decode (bs : List UInt8) : Except Fault (List Char) := decodeFrom 0 bs

/-- The text of the bytes, with a replacement character in the place of each fault. -/
def decodeReplacing : List UInt8 → List Char
  | [] => []
  | b :: bs =>
    match head b bs with
    | ⟨.ok c, extra⟩ => c :: decodeReplacing (bs.drop extra)
    | ⟨.error _, extra⟩ => Char.ofNat 0xFFFD :: decodeReplacing (bs.drop extra)
termination_by bs => bs.length
decreasing_by all_goals simp only [List.length_cons, List.length_drop]; omega

def encode (cs : List Char) : List UInt8 := cs.flatMap String.utf8EncodeChar

end Pearl.Text.Utf8
