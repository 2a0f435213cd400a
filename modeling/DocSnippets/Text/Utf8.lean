/-!
# Reading bytes as text

Bytes that are no UTF-8 are read with a replacement character for each longest part of a character
that is cut short, and for each byte that starts none.
-/

namespace DocSnippets.Text

def replacement : Char := Char.ofNat 0xfffd

def isBetween (low high byte : Nat) : Bool := low ≤ byte && byte ≤ high

/-- The range of the second byte after a first byte of three or four. -/
def secondRange (first : Nat) : Nat × Nat :=
  if first = 0xe0 then (0xa0, 0xbf)
  else if first = 0xed then (0x80, 0x9f)
  else if first = 0xf0 then (0x90, 0xbf)
  else if first = 0xf4 then (0x80, 0x8f)
  else (0x80, 0xbf)

def isSecond (first byte : Nat) : Bool :=
  isBetween (secondRange first).1 (secondRange first).2 byte

def isTrail (byte : Nat) : Bool := isBetween 0x80 0xbf byte

/-- The character whose code point has the bits of a first byte, without its mark, and then six of
each trailing byte. -/
def assembled (lead : Nat) (trail : List Nat) : Char :=
  Char.ofNat (trail.foldl (fun n b => n * 64 + (b - 0x80)) lead)

def decodeLossy : List Nat → List Char
  | [] => []
  | a :: rest =>
    if a < 0x80 then Char.ofNat a :: decodeLossy rest
    else if isBetween 0xc2 0xdf a then
      match rest with
      | [] => [replacement]
      | b :: rest' =>
        if isTrail b then assembled (a - 0xc0) [b] :: decodeLossy rest'
        else replacement :: decodeLossy (b :: rest')
    else if isBetween 0xe0 0xef a then
      match rest with
      | [] => [replacement]
      | b :: rest' =>
        if isSecond a b then
          match rest' with
          | [] => [replacement]
          | c :: rest'' =>
            if isTrail c then
              assembled (a - 0xe0) [b, c] :: decodeLossy rest''
            else replacement :: decodeLossy (c :: rest'')
        else replacement :: decodeLossy (b :: rest')
    else if isBetween 0xf0 0xf4 a then
      match rest with
      | [] => [replacement]
      | b :: rest' =>
        if isSecond a b then
          match rest' with
          | [] => [replacement]
          | c :: rest'' =>
            if isTrail c then
              match rest'' with
              | [] => [replacement]
              | d :: rest''' =>
                if isTrail d then
                  assembled (a - 0xf0) [b, c, d] :: decodeLossy rest'''
                else replacement :: decodeLossy (d :: rest''')
            else replacement :: decodeLossy (c :: rest'')
        else replacement :: decodeLossy (b :: rest')
    else replacement :: decodeLossy rest

def ofBytes (bytes : ByteArray) : List Char :=
  decodeLossy (bytes.data.toList.map UInt8.toNat)

end DocSnippets.Text
