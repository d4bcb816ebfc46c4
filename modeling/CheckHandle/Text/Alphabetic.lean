import CheckHandle.Text.Ranges

/-!
# Alphabetic characters

The derived Unicode property Alphabetic. It decides which characters may start
an identifier. ASCII is answered without the table.

Tokens and names follow version 17 of the standard, the grammar follows version
18. The difference shows where the grammar reads text that was not scanned
before, such as the types of stubs: source code has no identifier with a letter
that version 17 does not know.
-/

namespace CheckHandle.Text

set_option maxRecDepth 10000

/-- Code points above ASCII that have the property Alphabetic in version 17. -/
def alphabeticRanges : List (Nat × Nat) :=
  rangesOf 0 <| runsOf [
    0x41811ce1e717851b3d443b18112121111e4f596124e12ce1829b11ab12c11131161142212a3d11ae111751e1c479a13f12f51411a12da,
    0x411a21c51241181122221834311712e2221812b1d1f43128119c6731c1a5a1817713851b7392b2b23851421949381cd1d68281231a3418,
    0x1112341336122811d512421922221835121712e2221813442d41f1321311935121712e13119131b629114714222454212121712e224613,
    0x32a13162e5745113131182591311d1c31d41352183131183511a12f13118143c42213121831311832812f1311d5816133133541c333232,
    0x11724159d15b215114e241a1882852116f18b4c12842b44c1187f14841e161152312b111381511126b16757a1d22a18111618721119138,
    0x1c13f1a18e55b71b918b1411e2b26c1c21311d1c2c1c2d1b2c71b319b53a129219dc3621ae28284d18b2417911f2411172414924159241,
    0x1182624e2624ae1b4a2b3885132161459325b51b24c1a32e6f1e1b15c1a425a6b1811f16c6931b22f16a2c27f43c6e3a45c1b523e2f194,
    0x2f281778215114e1c23463cd3cae6c1cdd59291455421b14111111653111a21411cd1d2811d11ec71351d46243713311716d23f111111,
    0x2194f1e931855f2c21a28349d25e18b5ba9d1881cf881888286848291be15b5411ba1361ae45257193937ad15f48171717171717171719,
    0x2d1fb61e15b171719626261b42282338111118d32f2a1e196f151a282811f1c16b33d1d4b5491a311365c1118c1c6c384912d2c1aa21cf,
    0x21f1212b13a11c4b326262631b91b3a63a4c28f151ec1c586e21882a5db491dc1212111511d11c551c74e1da25de28c8c6942f1c2decc,
    0x18d1915a1638181a2e194ef1c6c321711f11b121711f11b1c6c185844c44c2a2be5a511844c23e55b53e1d485f6933d49b6d18d1fb4a1e,
    0x4a581d6b1d6b6f1991de2a1d2b1a2e1a6e3b3c1184b3d33d5a3d13118521418826784e3a63a1a2e1a212b1893f192f1a2f213215c1126,
    0x1411177e46124a12a4b1111a2194118819134b184296b2f391d119791a55b18e192f3b2d5e2a5a2e1811a3d336a62823215a3fa2f5133c,
    0x126e7b13117f4a639726e2f8112218a3e32c413118a5c1113214112111a14e112111a3c75161322221835121712e22218142f7971a11f,
    0x71991e12e23e6911715d1193f491b8181cf1992a15198291a26b3b2111625e2181bd4222213e12118212183f1881cf792f972d1e23b18f,
    0x3ba95f1daf9198f57ebb3962928e81f1c9599c38c291df1ce1eba19f11df3359129192f48c5c2f1141214d12163822113121135c121,
    0x41e1233d11f4cb12171428ffd1eb1c948591ebae1971c11218829779419b5c39239481883ab5d6e82b52d3f428682a3e2919f293f718f9,
    0x1813913f13913f13913f13913f13913925ac1731151413c17118241189171111c14222122118f11ad1bdc9141a71931d51db4c8c69c18,
    0x11211213b142aec131318c7b38d11f1214173c82182e13f39f123e3cc3c7cc5c2a3e58912871a5d1e81497e551217229173ad663f3cec,
    0x4eca19de1f1ece921ba9e218cbe481abbc879ee3a63a63a19ec29151352911a1114141714211211111111112112131111114161111411a,
    0x28cda519d9b2fca18be]

/-- `c` has the Unicode property Alphabetic in version 17. -/
def isAlphabetic (c : Char) : Bool :=
  if c.toNat < 128 then c.isAlpha else inRanges alphabeticRanges c

/-- Code points that have the property Alphabetic in version 18 only. -/
def laterAlphabeticRanges : List (Nat × Nat) :=
  rangesOf 0 <| runsOf [
    0x12acfd11fead6b1e1eaa3bf218c56b99f4ef3a81b5139fd21bcd168a9413a1c33c9b55e99d21e9914118bcfd31d11db8d27b26a12db8,
    0x2e98829bfc911dc9a86e171e1af4a8c]

/-- `c` has the Unicode property Alphabetic in version 18. -/
def isLaterAlphabetic (c : Char) : Bool :=
  isAlphabetic c || if c.toNat < 128 then false else inRanges laterAlphabeticRanges c

end CheckHandle.Text
