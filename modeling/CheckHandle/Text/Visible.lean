import CheckHandle.Text.Ranges

/-!
# Visible characters

Characters that can stand for themselves in a quoted text. Controls, format
characters, unassigned code points, private use and separators other than the
space cannot; neither can marks that extend the character before them, and
letters that fill a place and show nothing.
-/

namespace CheckHandle.Text

set_option maxRecDepth 10000

/-- Code points of the categories Cc, Cf, Co, Cn, Zl, Zp and Zs, less the space. -/
def unprintableRanges : List (Nat × Nat) :=
  rangesOf 0 <| runsOf [
    0x21924311712e2221812c9119b74851b1123c11f26927b1e1cd27b268138812e29643b186f1326a24e169d12c11174621b9a11c4a1bf480,
    0x51243732221925121712e22218131771c241f1231311a25121712e13119131a29711471332245112212121712e22461323925124118422,
    0x316b1311d1c311a24135274131192511a12f1312e71a24221312741311922812f1311d52d1e16124133541c3332321112341336121a2a2,
    0x11172415f92151138e4d1d11f14c14f44c119848421a17111522f111381511124d3d47a1c321a618111641372111913832a1313a228461,
    0x1c41c13f1a18e55b71b961b11e61a61a21be1c21311d1c2c1938192e71b933c11a882621ae63a348218b2417911f241117241492415924,
    0x22b1621e11f16d23f1111111182624e26218ae55b181b25b57e31f37c182ce119d2c1c25e21e61a61b23d118927e31b63a45c1b525a314,
    0x17f1283a3ae1c1b913a4a1fe171717171717171719381e2778215115d55fe23cac2d1b2e1aba429c1f491e4a31d13b22295f1838291913,
    0x19626261a3c381cf21a21e196f14941b119e33e1b1ec61c1818e187861a37c2c3bd182f82c5bc196f3799dd168191ae11be15b51cf21ae,
    0x13a11c221d7173326262632fe428f154412b16b65a481a9a1212111513a551c74e1da25de1cc88488846942f1c2decc61a21fe47c1717,
    0x6c321711f11b121711f11c1b6c185844c44c61a22be5a1e44d13e55b53e194c43c1f6933d28a5e5f131d11b835d4351fb4a1e21f1212b,
    0x3b23d36e191c44f4818871971a4323d131185216a22c4784e3b53b3495212b68191819812f213215c112618d1915a1638181a2e194ef1c,
    0x194f182a16d61a7391d517e194c419e192f2c3c4e3a2e5a185e49191862822315a13f3a82183d34e61a185e76b1d6b6f1991a871c473a5,
    0x1a181983e511bc3d218211a14112111a14e112111a1b537275161232221a15121712e222181461a57b61b11f1411177e5f12a1b2c11c8,
    0x181ae1a71991d1ab181983b1b25e21818e1a191c2213e12118212181c1ab1cc7c2f92f41f23b3c2c61a67a2b1d61a1b18d4a4e26e2ce,
    0x1b511df1ce1ebb1d6a1f11ad3d3591297393ee1a45c61a761214d121661a1819121135c12171991e12e24833d1a1e15d11961a1e4a1b8,
    0x29779419b5c3923951bb38e7a6e82b52d1711a1a18e1a623e61a11a941a13f718f93b8e7a1daf9198f57ebb1a2e2828e81d1cb599c38c,
    0x1a3ee7c1ec192f25e1f291f2f66ec33fd7dc8421a71931d51db4c8c69c1841e1233d11f4cb12171428ffd1eb1c948591ebae1971b5188,
    0x663f29a81f151f1afe24cc25ac1731151413c17118241189171111c14222122118f11ad28f39191af1c2c1c2c1fa18e2d1e81819a24f,
    0x438a7d19c18c1ca9241a419c5928238d11f1214173c82182e13f388145b3ae5a7a8157a293f588241a21e35d1e81497e551217229173ad,
    0x1945c1d3d782de1a4d11f11f21f1c1cc45c49e26c29151352911a1114141714211211111111112112131111114161111411a11211213b1,
    0x218cbe481abbc8288d1cf12ab71a41c2284117931b31d21e185b84f191e241c23e185861a187841c1f141c63ba31d32931fb92ba61e27,
    0x5ff8a83e82dcea8e28cda519d9b2fca18be4eca19de1f1ece921ba9e]

/-- Code points with the property Grapheme_Extend, less the two that are letters. -/
def extendRanges : List (Nat × Nat) :=
  rangesOf 0 <| runsOf [
    0x17a13d21a73141841116f481385a197b35b5131191438119197a1b1bb3b3e14b41226271cd1282d681b198112121115d48f74ab1e81c88,
    0x2217a13d21b2741353116f1315811911c1117b13e21a37118412117a1162e22c14215417921b1323e133224241792213a21a1191184211,
    0x3423922216141ce1194c11b521511e6f111113b219971b19211ca181c7211a9118113214119813d21a119118421127923c21b27413311,
    0x341a6842c1c25e68121a618211117117a1223bb361192431ee14a21ed1135d1191b211871218823e23d33c41eea31aff11f162211d428,
    0x15239141314a821a82481a147afac21d9618da481c8129d35ffe4938b1189c18838e231614711d132b82218785113211786244821c194e,
    0x52ad13ca11f9d2828281bc914fce8141213de11825a1125223116b15f11811c2222618b14c12224216835c111b39184e11d2a3a22af,
    0x18312bd12164231bf1241811196c21c17e18154c37d172246931a221591f6e11fb4691b18e619d24fd5189418fd22cd14358452133a8e,
    0x48b51421111cd1821111da2112181ad23b21264213db212112116211a912f1132181ad21e113431121162118b5371e11911c111127922d,
    0x12f3556c21b25bb111321981171211361fa2121722e1aa116173991131138e211d5e32619118426581a48142242a81441a13ed2119,
    0x217229172da81f152e11e1186a46f3efb32ac43e72181863518be2f25e199c924eadb21b11a947f128b877b54f88331c2eb981f611abcd,
    0x3e82881c8389bbad71dd77ba15271213eb23fe47fc47d15ef72c811cc51]

/-- `c` attaches to the character before it. -/
def isExtending (c : Char) : Bool :=
  if c.toNat < 128 then false else inRanges extendRanges c

/-- Letters with the property Default_Ignorable_Code_Point. -/
def fillerRanges : List (Nat × Nat) :=
  [(4447, 4448), (12644, 12644), (65440, 65440)]

/-- `c` shows as itself when it stands alone. -/
def isVisible (c : Char) : Bool :=
  if c.toNat < 128 then 32 ≤ c.toNat && c.toNat < 127
  else !inRanges unprintableRanges c && !isExtending c && !inRanges fillerRanges c

end CheckHandle.Text
