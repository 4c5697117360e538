import Trellis.Text.CaseRun

/-!
# Lower-case mappings

The lower-case mapping of the characters outside ASCII, without regard to context: runs of characters
that move by one common distance, and the one character whose lower case is a sequence.
-/

namespace Trellis.Text.Table

def lowerCase : List CaseRun := [
  .run 192 214 32, .run 216 222 32, .pairs 256 302, .pairs 306 310, .pairs 313 327, .pairs 330 374, .one 376 (-121),
  .pairs 377 381, .one 385 210, .pairs 386 388, .one 390 206, .one 391 1, .run 393 394 205, .one 395 1, .one 398 79,
  .one 399 202, .one 400 203, .one 401 1, .one 403 205, .one 404 207, .one 406 211, .one 407 209, .one 408 1,
  .one 412 211, .one 413 213, .one 415 214, .pairs 416 420, .one 422 218, .one 423 1, .one 425 218, .one 428 1,
  .one 430 218, .one 431 1, .run 433 434 217, .pairs 435 437, .one 439 219, .one 440 1, .one 444 1, .one 452 2,
  .one 453 1, .one 455 2, .one 456 1, .one 458 2, .pairs 459 475, .pairs 478 494, .one 497 2, .pairs 498 500,
  .one 502 (-97), .one 503 (-56), .pairs 504 542, .one 544 (-130), .pairs 546 562, .one 570 10795, .one 571 1,
  .one 573 (-163), .one 574 10792, .one 577 1, .one 579 (-195), .one 580 69, .one 581 71, .pairs 582 590,
  .pairs 880 882, .one 886 1, .one 895 116, .one 902 38, .run 904 906 37, .one 908 64, .run 910 911 63,
  .run 913 929 32, .run 931 939 32, .one 975 8, .pairs 984 1006, .one 1012 (-60), .one 1015 1, .one 1017 (-7),
  .one 1018 1, .run 1021 1023 (-130), .run 1024 1039 80, .run 1040 1071 32, .pairs 1120 1152, .pairs 1162 1214,
  .one 1216 15, .pairs 1217 1229, .pairs 1232 1326, .run 1329 1366 48, .run 4256 4293 7264, .one 4295 7264,
  .one 4301 7264, .run 5024 5103 38864, .run 5104 5109 8, .one 7305 1, .run 7312 7354 (-3008), .run 7357 7359 (-3008),
  .pairs 7680 7828, .one 7838 (-7615), .pairs 7840 7934, .run 7944 7951 (-8), .run 7960 7965 (-8),
  .run 7976 7983 (-8), .run 7992 7999 (-8), .run 8008 8013 (-8), ⟨8025, 8031, 2, -8⟩, .run 8040 8047 (-8),
  .run 8072 8079 (-8), .run 8088 8095 (-8), .run 8104 8111 (-8), .run 8120 8121 (-8), .run 8122 8123 (-74),
  .one 8124 (-9), .run 8136 8139 (-86), .one 8140 (-9), .run 8152 8153 (-8), .run 8154 8155 (-100),
  .run 8168 8169 (-8), .run 8170 8171 (-112), .one 8172 (-7), .run 8184 8185 (-128), .run 8186 8187 (-126),
  .one 8188 (-9), .one 8486 (-7517), .one 8490 (-8383), .one 8491 (-8262), .one 8498 28, .run 8544 8559 16,
  .one 8579 1, .run 9398 9423 26, .run 11264 11311 48, .one 11360 1, .one 11362 (-10743), .one 11363 (-3814),
  .one 11364 (-10727), .pairs 11367 11371, .one 11373 (-10780), .one 11374 (-10749), .one 11375 (-10783),
  .one 11376 (-10782), .one 11378 1, .one 11381 1, .run 11390 11391 (-10815), .pairs 11392 11490, .pairs 11499 11501,
  .one 11506 1, .pairs 42560 42604, .pairs 42624 42650, .pairs 42786 42798, .pairs 42802 42862, .pairs 42873 42875,
  .one 42877 (-35332), .pairs 42878 42886, .one 42891 1, .one 42893 (-42280), .pairs 42896 42898, .pairs 42902 42920,
  .one 42922 (-42308), .one 42923 (-42319), .one 42924 (-42315), .one 42925 (-42305), .one 42926 (-42308),
  .one 42928 (-42258), .one 42929 (-42282), .one 42930 (-42261), .one 42931 928, .pairs 42932 42946, .one 42948 (-48),
  .one 42949 (-42307), .one 42950 (-35384), .pairs 42951 42953, .one 42955 (-42343), .pairs 42956 42970,
  .one 42972 (-42561), .one 42997 1, .run 65313 65338 32, .run 66560 66599 40, .run 66736 66771 40,
  .run 66928 66938 39, .run 66940 66954 39, .run 66956 66962 39, .run 66964 66965 39, .run 68736 68786 64,
  .run 68944 68965 32, .run 71840 71871 32, .run 93760 93791 32, .run 93856 93880 27, .run 125184 125217 34]

def lowerCaseSequences : List (Nat × List Nat) := [
  (0x130, [0x69, 0x307])]

end Trellis.Text.Table
