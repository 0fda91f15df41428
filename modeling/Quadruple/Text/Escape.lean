/-!
# Escapes of string literals

A backslash gives the byte behind it a meaning: `n`, `t`, `r` and `0` stand for a line feed, a tab,
a carriage return and a zero byte, any other byte for itself. A backslash at the end stands for
itself.
-/

namespace Quadruple.Text

def escapedByte (b : UInt8) : UInt8 :=
  if b = 'n'.toUInt8 then 10
  else if b = 't'.toUInt8 then 9
  else if b = 'r'.toUInt8 then 13
  else if b = '0'.toUInt8 then 0
  else b

def unescape : List UInt8 → List UInt8
  | [] => []
  | [b] => [b]
  | b :: c :: bs =>
    if b = '\\'.toUInt8 then escapedByte c :: unescape bs else b :: unescape (c :: bs)

def utf8Bytes (s : String) : List UInt8 := s.toUTF8.toList

end Quadruple.Text
