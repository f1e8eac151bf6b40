import Lox.Text

/-! Texts decoded from UTF-8. Every longest start of a sequence that cannot go on becomes one
U+FFFD, and a byte order mark is a unit like any other. -/

namespace Lox.Utf8

/-- Where the decoder stands between bytes. -/
inductive State where
  | start
  /-- So many bytes are missing, the next one is between two bounds, and `value` is what the bytes
  so far add up to. -/
  | inside (missing : Nat) (least most : UInt8) (value : Nat)

/-- What stands for bytes that are not well formed. -/
def replacement : Text := [0xFFFD]

/-- The first byte of a sequence. -/
def first (b : UInt8) : Text × State :=
  if b < 0x80 then ([b.toUInt16], .start)
  else if 0xC2 ≤ b && b ≤ 0xDF then ([], .inside 1 0x80 0xBF (b.toNat - 0xC0))
  else if 0xE0 ≤ b && b ≤ 0xEF then
    let least := if b = 0xE0 then 0xA0 else 0x80
    let most := if b = 0xED then 0x9F else 0xBF
    ([], .inside 2 least most (b.toNat - 0xE0))
  else if 0xF0 ≤ b && b ≤ 0xF4 then
    let least := if b = 0xF0 then 0x90 else 0x80
    let most := if b = 0xF4 then 0x8F else 0xBF
    ([], .inside 3 least most (b.toNat - 0xF0))
  else (replacement, .start)

/-- One more byte. Where a sequence cannot go on with it, the byte starts another one. -/
def next (state : State) (b : UInt8) : Text × State :=
  match state with
  | .start => first b
  | .inside missing least most value =>
    if least ≤ b && b ≤ most then
      let value := value * 64 + (b.toNat - 0x80)
      if missing ≤ 1 then (Text.ofChar (Char.ofNat value), .start)
      else ([], .inside (missing - 1) 0x80 0xBF value)
    else
      let (text, state) := first b
      (replacement ++ text, state)

def decodeFrom (state : State) : List UInt8 → Text
  | [] =>
    match state with
    | .start => []
    | .inside .. => replacement
  | b :: rest =>
    let (text, state) := next state b
    text ++ decodeFrom state rest

def decode (bytes : List UInt8) : Text := decodeFrom .start bytes

end Lox.Utf8
