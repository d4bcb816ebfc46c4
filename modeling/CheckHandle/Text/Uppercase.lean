/-!
# Upper case

The full upper-case form of a character, which may have several characters
(the sharp s becomes two letters).
-/

namespace CheckHandle.Text

set_option maxRecDepth 10000

/-- Runs `(first, last)` in which every second code point, from `first` on, goes
to the one before it. -/
def uppercasePairs : List (Nat × Nat) :=
  [(257, 303), (307, 311), (314, 328), (331, 375), (378, 382), (387, 389), (392, 392), (396, 396), (402, 402),
   (409, 409), (417, 421), (424, 424), (429, 429), (432, 432), (436, 438), (441, 441), (445, 445), (453, 453),
   (456, 456), (459, 459), (462, 476), (479, 495), (498, 498), (501, 501), (505, 543), (547, 563), (572, 572),
   (578, 578), (583, 591), (881, 883), (887, 887), (985, 1007), (1016, 1016), (1019, 1019), (1121, 1153), (1163, 1215),
   (1218, 1230), (1233, 1327), (7306, 7306), (7681, 7829), (7841, 7935), (8580, 8580), (11361, 11361), (11368, 11372),
   (11379, 11379), (11382, 11382), (11393, 11491), (11500, 11502), (11507, 11507), (42561, 42605), (42625, 42651),
   (42787, 42799), (42803, 42863), (42874, 42876), (42879, 42887), (42892, 42892), (42897, 42899), (42903, 42921),
   (42933, 42947), (42952, 42954), (42957, 42971), (42998, 42998)]

/-- Runs `(first, last, image)` that move as a whole. -/
def uppercaseRuns : List (Nat × Nat × Nat) :=
  [(224, 246, 192), (248, 254, 216), (575, 576, 11390), (598, 599, 393), (650, 651, 433), (891, 893, 1021),
   (941, 943, 904), (945, 961, 913), (963, 971, 931), (973, 974, 910), (1072, 1103, 1040), (1104, 1119, 1024),
   (1377, 1414, 1329), (4304, 4346, 7312), (4349, 4351, 7357), (5112, 5117, 5104), (7299, 7300, 1057),
   (7936, 7943, 7944), (7952, 7957, 7960), (7968, 7975, 7976), (7984, 7991, 7992), (8000, 8005, 8008),
   (8032, 8039, 8040), (8048, 8049, 8122), (8050, 8053, 8136), (8054, 8055, 8154), (8056, 8057, 8184),
   (8058, 8059, 8170), (8060, 8061, 8186), (8112, 8113, 8120), (8144, 8145, 8152), (8160, 8161, 8168),
   (8560, 8575, 8544), (9424, 9449, 9398), (11312, 11359, 11264), (11520, 11557, 4256), (43888, 43967, 5024),
   (65345, 65370, 65313), (66600, 66639, 66560), (66776, 66811, 66736), (66967, 66977, 66928), (66979, 66993, 66940),
   (66995, 67001, 66956), (67003, 67004, 66964), (68800, 68850, 68736), (68976, 68997, 68944), (71872, 71903, 71840),
   (93792, 93823, 93760), (93883, 93907, 93856), (125218, 125251, 125184)]

/-- Code points and their images. -/
def uppercaseSingles : List (Nat × Nat) :=
  [(181, 924), (255, 376), (305, 73), (383, 83), (384, 579), (405, 502), (410, 573), (411, 42972), (414, 544),
   (447, 503), (454, 452), (457, 455), (460, 458), (477, 398), (499, 497), (592, 11375), (593, 11373), (594, 11376),
   (595, 385), (596, 390), (601, 399), (603, 400), (604, 42923), (608, 403), (609, 42924), (611, 404), (612, 42955),
   (613, 42893), (614, 42922), (616, 407), (617, 406), (618, 42926), (619, 11362), (620, 42925), (623, 412),
   (625, 11374), (626, 413), (629, 415), (637, 11364), (640, 422), (642, 42949), (643, 425), (647, 42929), (648, 430),
   (649, 580), (652, 581), (658, 439), (669, 42930), (670, 42928), (837, 921), (940, 902), (962, 931), (972, 908),
   (976, 914), (977, 920), (981, 934), (982, 928), (983, 975), (1008, 922), (1009, 929), (1010, 1017), (1011, 895),
   (1013, 917), (1231, 1216), (7296, 1042), (7297, 1044), (7298, 1054), (7301, 1058), (7302, 1066), (7303, 1122),
   (7304, 42570), (7545, 42877), (7549, 11363), (7566, 42950), (7835, 7776), (8017, 8025), (8019, 8027), (8021, 8029),
   (8023, 8031), (8126, 921), (8165, 8172), (8526, 8498), (11365, 570), (11366, 574), (11559, 4295), (11565, 4301),
   (42900, 42948), (43859, 42931)]

/-- Rows `(first, image)` of eight letters that become the image with an iota. -/
def uppercaseIotas : List (Nat × Nat) :=
  [(8064, 7944), (8072, 7944), (8080, 7976), (8088, 7976), (8096, 8040), (8104, 8040)]

/-- Other characters whose upper-case form has several characters. -/
def uppercaseSequences : List (Nat × List Nat) :=
  [(223, [83, 83]), (329, [700, 78]), (496, [74, 780]), (912, [921, 776, 769]), (944, [933, 776, 769]),
   (1415, [1333, 1362]), (7830, [72, 817]), (7831, [84, 776]), (7832, [87, 778]), (7833, [89, 778]), (7834, [65, 702]),
   (8016, [933, 787]), (8018, [933, 787, 768]), (8020, [933, 787, 769]), (8022, [933, 787, 834]), (8114, [8122, 921]),
   (8115, [913, 921]), (8116, [902, 921]), (8118, [913, 834]), (8119, [913, 834, 921]), (8124, [913, 921]),
   (8130, [8138, 921]), (8131, [919, 921]), (8132, [905, 921]), (8134, [919, 834]), (8135, [919, 834, 921]),
   (8140, [919, 921]), (8146, [921, 776, 768]), (8147, [921, 776, 769]), (8150, [921, 834]), (8151, [921, 776, 834]),
   (8162, [933, 776, 768]), (8163, [933, 776, 769]), (8164, [929, 787]), (8166, [933, 834]), (8167, [933, 776, 834]),
   (8178, [8186, 921]), (8179, [937, 921]), (8180, [911, 921]), (8182, [937, 834]), (8183, [937, 834, 921]),
   (8188, [937, 921]), (64256, [70, 70]), (64257, [70, 73]), (64258, [70, 76]), (64259, [70, 70, 73]),
   (64260, [70, 70, 76]), (64261, [83, 84]), (64262, [83, 84]), (64275, [1348, 1350]), (64276, [1348, 1333]),
   (64277, [1348, 1339]), (64278, [1358, 1350]), (64279, [1348, 1341])]

/-- The code points of the upper-case form of `n`, unless it is `n` itself. -/
def uppercaseImage? (n : Nat) : Option (List Nat) :=
  uppercaseSequences.lookup n <|>
  (uppercaseIotas.find? fun r => r.1 ≤ n && n < r.1 + 8).map (fun r => [r.2 + (n - r.1), 921]) <|>
  (uppercaseSingles.lookup n).map ([·]) <|>
  (uppercasePairs.find? fun r => r.1 ≤ n && n ≤ r.2 && (n - r.1) % 2 == 0).map (fun _ => [n - 1]) <|>
  (uppercaseRuns.find? fun r => r.1 ≤ n && n ≤ r.2.1).map fun r => [r.2.2 + (n - r.1)]

/-- The full upper-case form of `c`. -/
def uppercase (c : Char) : List Char :=
  if c.toNat < 128 then [c.toUpper] else ((uppercaseImage? c.toNat).map (·.map Char.ofNat)).getD [c]

/-- The text with its first character in upper case. -/
def capitalize : List Char → List Char
  | [] => []
  | c :: cs => uppercase c ++ cs

end CheckHandle.Text
