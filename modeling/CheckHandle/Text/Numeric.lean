import CheckHandle.Text.Alphabetic

/-!
# Numeric characters

Decimal digits (category Nd) and the other number characters (categories Nl
and No). The grammar continues an identifier with the former only, the scanner
with both, so the two differ on a character such as a superscript two.
-/

namespace CheckHandle.Text

set_option maxRecDepth 10000

/-- Code points above ASCII of category Nd. -/
def decimalRanges : List (Nat × Nat) :=
  rangesOf 0 <| runsOf [
    0x2881a4dc1a4e1a3d8e1a18e1a4ae1a18e1a1ee1a1c81a1ee1a1ee1a1ee1a1ee1a1ee1a1ee1a1ee1a1ee1a1ee1a6bc1a38e1a28e1a39c8,
    0x4ae1a2a81a7c1a2881a1cbc1a61a4a8e1a2e8e1a59cae1a6ae1a1ae1a2e1a38e1a4e1a1ace1a18cf8e1a61a28e1a1ae1a2ee1a61a2ce1a,
    0x5bac1a5fdee1a18ae1a28e1a1ae1a4cce1a48fae1a5ce1a6e1a18e1a3ee1a1ae1a1aae1a1ce1a6ce1a19c2c61a1ce1a5ee1a1ee1a5ae1a,
    0x1a19aae1a1dad1a3ef1a7ee1a6ce1a4d886a]

/-- Code points of the categories Nl and No. -/
def numberRanges : List (Nat × Nat) :=
  rangesOf 0 <| runsOf [
    0x31e193911c9912dd93e19ee2e19e7c1bae526b38e1a66313aad17c81a3ff31de92c28ed1a6e9192973b9728d31f865f864ced321522ea,
    0x33e26c191885e228222c862e519b194f739182a8a528e11813d44c3b5ad229791c5d5cba965881a7a8ce1f4f1a481f1183e1a29a45af,
    0x391dc2c1c2c69b9935bd2f1cbe74bbdc1df28db2d1dab2b1dcf196de22d8d2c5fb2c28e71e845a1a2be3f5c8659a7591838181d8519b,
    0x1d1f8a1f15d19c41317b1ec9191ad9e]

/-- `c` is a decimal digit of some script. -/
def isDecimal (c : Char) : Bool :=
  if c.toNat < 128 then c.isDigit else inRanges decimalRanges c

/-- `c` is alphabetic or numeric. -/
def isAlphanumeric (c : Char) : Bool :=
  isAlphabetic c || isDecimal c || if c.toNat < 128 then false else inRanges numberRanges c

end CheckHandle.Text
