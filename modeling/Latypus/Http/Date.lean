import Latypus.Http.Message

/-! `http_date`: the table-driven parser of http_date.cc, as Ragel generated it from http_date.rl,
and `to_header_string`. `gmtime_r` and `timegm` are parameters. -/

namespace Latypus.Http

/-- The fields of `struct tm` that a conversion reads or sets. -/
structure Tm where
  sec : Int
  min : Int
  hour : Int
  mday : Int
  mon : Int
  year : Int
  wday : Int
  yday : Int
  isdst : Int
deriving DecidableEq, Repr

def Tm.zero : Tm := ⟨0, 0, 0, 0, 0, 0, 0, 0, 0⟩

namespace HttpDate

/-- "Sun", "Mon", "Tue", "Wed", "Thu", "Fri", "Sat" -/
def dayNames : List Bytes := [
  [83, 117, 110], [77, 111, 110], [84, 117, 101], [87, 101, 100], [84, 104, 117], [70, 114, 105],
  [83, 97, 116]]

/-- "Jan", "Feb", "Mar", "Apr", "May", "Jun", "Jul", "Aug", "Sep", "Oct", "Nov", "Dec" -/
def monthNames : List Bytes := [
  [74, 97, 110], [70, 101, 98], [77, 97, 114], [65, 112, 114], [77, 97, 121], [74, 117, 110],
  [74, 117, 108], [65, 117, 103], [83, 101, 112], [79, 99, 116], [78, 111, 118], [68, 101, 99]]

/-- A digit written as `'0' + n`, an `int` that is stored in a `char`. -/
def digit (n : Int) : UInt8 := UInt8.ofInt (48 + n)

section Format
variable (gmtimeR : Int → Tm)

/-- `to_header_string`: the bytes of the string it returns, which stand in `buf` with a terminator. -/
def toHeaderString (tod : Int) (bufLen : Nat) : Bytes :=
  if bufLen < 30 then []
  else
    let tm := gmtimeR tod
    let wday := dayNames.getD (tm.wday % 8).toNat []
    let mon := monthNames.getD (tm.mon.tmod 12).toNat []
    let year := tm.year + 1900
    [wday.getD 0 0, wday.getD 1 0, wday.getD 2 0, 44, 32,
      digit (tm.mday.tdiv 10), digit (tm.mday.tmod 10), 32,
      mon.getD 0 0, mon.getD 1 0, mon.getD 2 0, 32,
      digit (year.tdiv 1000), digit ((year.tdiv 100).tmod 10), digit ((year.tdiv 10).tmod 10),
      digit (year.tmod 10), 32,
      digit (tm.hour.tdiv 10), digit (tm.hour.tmod 10), 58,
      digit (tm.min.tdiv 10), digit (tm.min.tmod 10), 58,
      digit (tm.sec.tdiv 10), digit (tm.sec.tmod 10), 32, 71, 77, 84]

end Format

namespace Table

def actions : List Nat := [
  0, 1, 0, 1, 1, 1, 2, 1, 3, 1, 4, 1, 5, 1, 6, 1, 7, 1, 8, 1, 9, 1, 10, 1, 11, 1, 12, 1, 13, 1,
  14, 1, 15, 1, 16, 1, 17, 1, 18, 1, 19, 1, 20, 1, 21, 1, 22, 1, 23, 1, 24, 1, 25, 1, 26, 2, 25, 1]

def keyOffsets : List Nat := [
  0, 0, 5, 6, 7, 12, 23, 25, 26, 29, 34, 39, 44, 46, 47, 49, 51, 52, 54, 56, 59, 64, 66, 68, 70,
  73, 74, 77, 78, 79, 82, 83, 84, 87, 89, 90, 93, 95, 98, 101, 102, 104, 107, 110, 111, 112, 115,
  116, 117, 120, 121, 122, 125, 128, 133, 139, 150, 152, 153, 156, 161, 163, 165, 167, 170, 175,
  177, 178, 180, 182, 183, 185, 187, 190, 194, 195, 196, 197, 200, 201, 202, 205, 206, 207, 210,
  212, 213, 216, 218, 221, 224, 225, 227, 230, 233, 234, 235, 238, 239, 240, 243, 244, 245, 248,
  256, 258, 259, 260, 262, 264, 267, 268, 269, 270, 271, 272, 273, 274, 275, 277, 278, 279, 281,
  282, 283, 284, 286, 287, 288, 289, 290, 291, 292, 293, 294, 295, 296, 297, 301, 302, 303, 307,
  308, 309, 314, 315, 316, 320, 322, 323, 328, 329, 330, 331, 332, 336, 337, 342, 343, 344, 348,
  350, 351, 356, 357, 358, 359, 360, 364, 365, 370, 371, 372, 373, 377, 378, 379, 384, 385, 386,
  387, 388, 389, 393, 393]

def transKeys : List Nat := [
  70, 77, 83, 84, 87, 114, 105, 32, 44, 100, 9, 13, 32, 65, 68, 70, 74, 77, 78, 79, 83, 9, 13,
  112, 117, 114, 32, 9, 13, 32, 9, 13, 48, 57, 32, 9, 13, 48, 57, 32, 9, 13, 48, 57, 48, 57, 58,
  48, 57, 48, 57, 58, 48, 57, 48, 57, 32, 9, 13, 32, 9, 13, 48, 57, 48, 57, 48, 57, 48, 57, 32, 9,
  13, 103, 32, 9, 13, 101, 99, 32, 9, 13, 101, 98, 32, 9, 13, 97, 117, 110, 32, 9, 13, 108, 110,
  32, 9, 13, 32, 9, 13, 97, 114, 121, 32, 9, 13, 32, 9, 13, 111, 118, 32, 9, 13, 99, 116, 32, 9,
  13, 101, 112, 32, 9, 13, 32, 9, 13, 32, 9, 13, 48, 57, 32, 45, 9, 13, 48, 57, 32, 65, 68, 70,
  74, 77, 78, 79, 83, 9, 13, 112, 117, 114, 32, 9, 13, 32, 9, 13, 48, 57, 48, 57, 48, 57, 48, 57,
  32, 9, 13, 32, 9, 13, 48, 57, 48, 57, 58, 48, 57, 48, 57, 58, 48, 57, 48, 57, 32, 9, 13, 32, 71,
  9, 13, 77, 84, 103, 32, 9, 13, 101, 99, 32, 9, 13, 101, 98, 32, 9, 13, 97, 117, 110, 32, 9, 13,
  108, 110, 32, 9, 13, 32, 9, 13, 97, 114, 121, 32, 9, 13, 32, 9, 13, 111, 118, 32, 9, 13, 99,
  116, 32, 9, 13, 101, 112, 32, 9, 13, 65, 68, 70, 74, 77, 78, 79, 83, 112, 117, 114, 45, 48, 57,
  48, 57, 32, 9, 13, 103, 45, 101, 99, 45, 101, 98, 45, 97, 117, 110, 45, 108, 110, 45, 45, 97,
  114, 121, 45, 45, 111, 118, 45, 99, 116, 45, 101, 112, 45, 32, 45, 9, 13, 97, 121, 32, 44, 9,
  13, 111, 110, 32, 44, 100, 9, 13, 97, 121, 32, 44, 9, 13, 97, 117, 116, 32, 44, 117, 9, 13, 114,
  100, 97, 121, 32, 44, 9, 13, 110, 32, 44, 100, 9, 13, 97, 121, 32, 44, 9, 13, 104, 117, 117, 32,
  44, 114, 9, 13, 115, 100, 97, 121, 32, 44, 9, 13, 101, 32, 44, 115, 9, 13, 100, 97, 121, 32, 44,
  9, 13, 101, 100, 32, 44, 110, 9, 13, 101, 115, 100, 97, 121, 32, 44, 9, 13, 0]

def singleLengths : List Nat := [
  0, 5, 1, 1, 3, 9, 2, 1, 1, 1, 1, 1, 0, 1, 0, 0, 1, 0, 0, 1, 1, 0, 0, 0, 1, 1, 1, 1, 1, 1, 1, 1,
  1, 2, 1, 1, 2, 1, 1, 1, 2, 1, 1, 1, 1, 1, 1, 1, 1, 1, 1, 1, 1, 1, 2, 9, 2, 1, 1, 1, 0, 0, 0, 1,
  1, 0, 1, 0, 0, 1, 0, 0, 1, 2, 1, 1, 1, 1, 1, 1, 1, 1, 1, 1, 2, 1, 1, 2, 1, 1, 1, 2, 1, 1, 1, 1,
  1, 1, 1, 1, 1, 1, 1, 8, 2, 1, 1, 0, 0, 1, 1, 1, 1, 1, 1, 1, 1, 1, 2, 1, 1, 2, 1, 1, 1, 2, 1, 1,
  1, 1, 1, 1, 1, 1, 1, 1, 1, 2, 1, 1, 2, 1, 1, 3, 1, 1, 2, 2, 1, 3, 1, 1, 1, 1, 2, 1, 3, 1, 1, 2,
  2, 1, 3, 1, 1, 1, 1, 2, 1, 3, 1, 1, 1, 2, 1, 1, 3, 1, 1, 1, 1, 1, 2, 0, 0]

def rangeLengths : List Nat := [
  0, 0, 0, 0, 1, 1, 0, 0, 1, 2, 2, 2, 1, 0, 1, 1, 0, 1, 1, 1, 2, 1, 1, 1, 1, 0, 1, 0, 0, 1, 0, 0,
  1, 0, 0, 1, 0, 1, 1, 0, 0, 1, 1, 0, 0, 1, 0, 0, 1, 0, 0, 1, 1, 2, 2, 1, 0, 0, 1, 2, 1, 1, 1, 1,
  2, 1, 0, 1, 1, 0, 1, 1, 1, 1, 0, 0, 0, 1, 0, 0, 1, 0, 0, 1, 0, 0, 1, 0, 1, 1, 0, 0, 1, 1, 0, 0,
  1, 0, 0, 1, 0, 0, 1, 0, 0, 0, 0, 1, 1, 1, 0, 0, 0, 0, 0, 0, 0, 0, 0, 0, 0, 0, 0, 0, 0, 0, 0, 0,
  0, 0, 0, 0, 0, 0, 0, 0, 0, 1, 0, 0, 1, 0, 0, 1, 0, 0, 1, 0, 0, 1, 0, 0, 0, 0, 1, 0, 1, 0, 0, 1,
  0, 0, 1, 0, 0, 0, 0, 1, 0, 1, 0, 0, 0, 1, 0, 0, 1, 0, 0, 0, 0, 0, 1, 0, 0]

def indexOffsets : List Nat := [
  0, 0, 6, 8, 10, 15, 26, 29, 31, 34, 38, 42, 46, 48, 50, 52, 54, 56, 58, 60, 63, 67, 69, 71, 73,
  76, 78, 81, 83, 85, 88, 90, 92, 95, 98, 100, 103, 106, 109, 112, 114, 117, 120, 123, 125, 127,
  130, 132, 134, 137, 139, 141, 144, 147, 151, 156, 167, 170, 172, 175, 179, 181, 183, 185, 188,
  192, 194, 196, 198, 200, 202, 204, 206, 209, 213, 215, 217, 219, 222, 224, 226, 229, 231, 233,
  236, 239, 241, 244, 247, 250, 253, 255, 258, 261, 264, 266, 268, 271, 273, 275, 278, 280, 282,
  285, 294, 297, 299, 301, 303, 305, 308, 310, 312, 314, 316, 318, 320, 322, 324, 327, 329, 331,
  334, 336, 338, 340, 343, 345, 347, 349, 351, 353, 355, 357, 359, 361, 363, 365, 369, 371, 373,
  377, 379, 381, 386, 388, 390, 394, 397, 399, 404, 406, 408, 410, 412, 416, 418, 423, 425, 427,
  431, 434, 436, 441, 443, 445, 447, 449, 453, 455, 460, 462, 464, 466, 470, 472, 474, 479, 481,
  483, 485, 487, 489, 493, 494]

def indicies : List Nat := [
  0, 2, 3, 4, 5, 1, 6, 1, 7, 1, 8, 9, 10, 8, 1, 11, 12, 13, 14, 15, 16, 17, 18, 19, 11, 1, 20, 21,
  1, 22, 1, 23, 23, 1, 24, 24, 25, 1, 26, 26, 27, 1, 28, 28, 29, 1, 30, 1, 31, 1, 32, 1, 33, 1,
  34, 1, 35, 1, 36, 1, 37, 37, 1, 38, 38, 39, 1, 40, 1, 41, 1, 42, 1, 26, 26, 1, 43, 1, 44, 44, 1,
  45, 1, 46, 1, 47, 47, 1, 48, 1, 49, 1, 50, 50, 1, 51, 52, 1, 53, 1, 54, 54, 1, 55, 56, 1, 57,
  57, 1, 58, 58, 1, 59, 1, 60, 61, 1, 62, 62, 1, 63, 63, 1, 64, 1, 65, 1, 66, 66, 1, 67, 1, 68, 1,
  69, 69, 1, 70, 1, 71, 1, 72, 72, 1, 73, 73, 1, 73, 73, 74, 1, 75, 76, 75, 77, 1, 78, 79, 80, 81,
  82, 83, 84, 85, 86, 78, 1, 87, 88, 1, 89, 1, 90, 90, 1, 91, 91, 92, 1, 93, 1, 94, 1, 95, 1, 96,
  96, 1, 97, 97, 98, 1, 99, 1, 100, 1, 101, 1, 102, 1, 103, 1, 104, 1, 105, 1, 106, 106, 1, 107,
  108, 107, 1, 109, 1, 110, 1, 111, 1, 112, 112, 1, 113, 1, 114, 1, 115, 115, 1, 116, 1, 117, 1,
  118, 118, 1, 119, 120, 1, 121, 1, 122, 122, 1, 123, 124, 1, 125, 125, 1, 126, 126, 1, 127, 1,
  128, 129, 1, 130, 130, 1, 131, 131, 1, 132, 1, 133, 1, 134, 134, 1, 135, 1, 136, 1, 137, 137, 1,
  138, 1, 139, 1, 140, 140, 1, 141, 142, 143, 144, 145, 146, 147, 148, 1, 149, 150, 1, 151, 1,
  152, 1, 153, 1, 154, 1, 155, 155, 1, 156, 1, 157, 1, 158, 1, 159, 1, 160, 1, 161, 1, 162, 1,
  163, 1, 164, 165, 1, 166, 1, 167, 1, 168, 169, 1, 170, 1, 171, 1, 172, 1, 173, 174, 1, 175, 1,
  176, 1, 177, 1, 178, 1, 179, 1, 180, 1, 181, 1, 182, 1, 183, 1, 184, 1, 185, 1, 75, 76, 75, 1,
  186, 1, 187, 1, 8, 9, 8, 1, 188, 1, 189, 1, 190, 191, 192, 190, 1, 193, 1, 194, 1, 190, 191,
  190, 1, 195, 196, 1, 197, 1, 198, 199, 200, 198, 1, 201, 1, 202, 1, 203, 1, 204, 1, 198, 199,
  198, 1, 205, 1, 206, 207, 208, 206, 1, 209, 1, 210, 1, 206, 207, 206, 1, 211, 212, 1, 213, 1,
  214, 215, 216, 214, 1, 217, 1, 218, 1, 219, 1, 220, 1, 214, 215, 214, 1, 221, 1, 222, 223, 224,
  222, 1, 225, 1, 226, 1, 227, 1, 222, 223, 222, 1, 228, 1, 229, 1, 230, 231, 232, 230, 1, 233, 1,
  234, 1, 235, 1, 236, 1, 237, 1, 230, 231, 230, 1, 1, 1, 0]

def transTargs : List Nat := [
  2, 0, 141, 147, 160, 174, 3, 4, 5, 52, 138, 5, 6, 27, 30, 33, 39, 43, 46, 49, 7, 25, 8, 9, 9,
  10, 11, 24, 11, 12, 13, 14, 15, 16, 17, 18, 19, 20, 20, 21, 22, 23, 183, 26, 9, 28, 29, 9, 31,
  32, 9, 34, 36, 35, 9, 37, 38, 9, 9, 40, 41, 42, 9, 9, 44, 45, 9, 47, 48, 9, 50, 51, 9, 53, 54,
  55, 103, 137, 55, 56, 78, 81, 84, 90, 94, 97, 100, 57, 76, 58, 59, 59, 60, 61, 62, 63, 64, 64,
  65, 66, 67, 68, 69, 70, 71, 72, 73, 73, 74, 75, 184, 77, 59, 79, 80, 59, 82, 83, 59, 85, 87, 86,
  59, 88, 89, 59, 59, 91, 92, 93, 59, 59, 95, 96, 59, 98, 99, 59, 101, 102, 59, 104, 112, 115,
  118, 124, 128, 131, 134, 105, 110, 106, 107, 108, 109, 64, 111, 107, 113, 114, 107, 116, 117,
  107, 119, 121, 120, 107, 122, 123, 107, 107, 125, 126, 127, 107, 107, 129, 130, 107, 132, 133,
  107, 135, 136, 107, 139, 140, 142, 143, 5, 52, 144, 145, 146, 148, 155, 149, 5, 52, 150, 151,
  152, 153, 154, 156, 5, 52, 157, 158, 159, 161, 168, 162, 5, 52, 163, 164, 165, 166, 167, 169, 5,
  52, 170, 171, 172, 173, 175, 176, 5, 52, 177, 178, 179, 180, 181, 182]

def transActions : List Nat := [
  0, 0, 0, 0, 0, 0, 0, 0, 15, 15, 0, 0, 0, 0, 0, 0, 0, 0, 0, 0, 0, 0, 0, 25, 0, 1, 43, 0, 0, 1, 0,
  45, 1, 0, 47, 1, 0, 49, 0, 1, 0, 0, 0, 0, 33, 0, 0, 41, 0, 0, 21, 0, 0, 0, 19, 0, 0, 31, 29, 0,
  0, 0, 23, 27, 0, 0, 39, 0, 0, 37, 0, 0, 35, 0, 1, 43, 43, 0, 0, 0, 0, 0, 0, 0, 0, 0, 0, 0, 0, 0,
  25, 0, 1, 0, 0, 0, 51, 0, 1, 0, 45, 1, 0, 47, 1, 0, 49, 0, 0, 0, 0, 0, 33, 0, 0, 41, 0, 0, 21,
  0, 0, 0, 19, 0, 0, 31, 29, 0, 0, 0, 23, 27, 0, 0, 39, 0, 0, 37, 0, 0, 35, 0, 0, 0, 0, 0, 0, 0,
  0, 0, 0, 0, 25, 1, 0, 53, 0, 33, 0, 0, 41, 0, 0, 21, 0, 0, 0, 19, 0, 0, 31, 29, 0, 0, 0, 23, 27,
  0, 0, 39, 0, 0, 37, 0, 0, 35, 0, 0, 0, 0, 7, 7, 0, 0, 0, 0, 0, 0, 17, 17, 0, 0, 0, 0, 0, 0, 5,
  5, 0, 0, 0, 0, 0, 0, 13, 13, 0, 0, 0, 0, 0, 0, 9, 9, 0, 0, 0, 0, 0, 0, 11, 11, 0, 0, 0, 0, 0, 0]

def eofActions : List Nat := [
  0, 0, 0, 0, 0, 0, 0, 0, 0, 0, 0, 0, 0, 0, 0, 0, 0, 0, 0, 0, 0, 0, 0, 0, 0, 0, 0, 0, 0, 0, 0, 0,
  0, 0, 0, 0, 0, 0, 0, 0, 0, 0, 0, 0, 0, 0, 0, 0, 0, 0, 0, 0, 0, 0, 0, 0, 0, 0, 0, 0, 0, 0, 0, 0,
  0, 0, 0, 0, 0, 0, 0, 0, 0, 0, 0, 0, 0, 0, 0, 0, 0, 0, 0, 0, 0, 0, 0, 0, 0, 0, 0, 0, 0, 0, 0, 0,
  0, 0, 0, 0, 0, 0, 0, 0, 0, 0, 0, 0, 0, 0, 0, 0, 0, 0, 0, 0, 0, 0, 0, 0, 0, 0, 0, 0, 0, 0, 0, 0,
  0, 0, 0, 0, 0, 0, 0, 0, 0, 0, 0, 0, 0, 0, 0, 0, 0, 0, 0, 0, 0, 0, 0, 0, 0, 0, 0, 0, 0, 0, 0, 0,
  0, 0, 0, 0, 0, 0, 0, 0, 0, 0, 0, 0, 0, 0, 0, 0, 0, 0, 0, 0, 0, 0, 0, 55, 3]

end Table

/-- The parser: state, `mark` as a position, and the fields read so far. -/
structure Parser where
  cs : Nat
  mark : Option Nat
  tm : Tm
deriving DecidableEq, Repr

def start : Nat := 1
def firstFinal : Nat := 183
def error : Nat := 0

open HttpParser (charOf searchSingle searchRange) in
def trans (cs : Nat) (c : UInt8) : Nat :=
  let keys := Table.transKeys.drop (Table.keyOffsets.getD cs 0)
  let singles := Table.singleLengths.getD cs 0
  let ranges := Table.rangeLengths.getD cs 0
  let index := Table.indexOffsets.getD cs 0
  let offset :=
    match searchSingle (keys.take singles) (charOf c) singles 0 singles with
    | some i => i
    | none =>
      match searchRange ((keys.drop singles).take (2 * ranges)) (charOf c) ranges 0 ranges with
      | some i => singles + i
      | none => singles + ranges
  Table.indicies.getD (index + offset) 0

/-- The actions behind an entry of an action table. -/
def acts (a : Nat) : List Nat := (Table.actions.drop (a + 1)).take (Table.actions.getD a 0)

/-- The state that a transition leads to, and its actions. -/
def next (cs : Nat) (c : UInt8) : Nat × List Nat :=
  let t := trans cs c
  let a := Table.transActions.getD t 0
  (Table.transTargs.getD t 0, if a = 0 then [] else acts a)

/-- `atoi(std::string(mark, p - mark).c_str())` -/
def number (str : Bytes) (mark : Option Nat) (p : Nat) : Int :=
  atoi (bytesAt str ⟨mark, p - mark.getD 0⟩)

/-- One action with the cursor at `p`. -/
def action (str : Bytes) (p : Nat) (s : Parser) : Nat → Parser
  | 0 => { s with mark := some p }
  | 2 => { s with tm.wday := 0 }
  | 3 => { s with tm.wday := 1 }
  | 4 => { s with tm.wday := 2 }
  | 5 => { s with tm.wday := 3 }
  | 6 => { s with tm.wday := 4 }
  | 7 => { s with tm.wday := 5 }
  | 8 => { s with tm.wday := 6 }
  | 9 => { s with tm.mon := 0 }
  | 10 => { s with tm.mon := 1 }
  | 11 => { s with tm.mon := 2 }
  | 12 => { s with tm.mon := 3 }
  | 13 => { s with tm.mon := 4 }
  | 14 => { s with tm.mon := 5 }
  | 15 => { s with tm.mon := 6 }
  | 16 => { s with tm.mon := 7 }
  | 17 => { s with tm.mon := 8 }
  | 18 => { s with tm.mon := 9 }
  | 19 => { s with tm.mon := 10 }
  | 20 => { s with tm.mon := 11 }
  | 21 => { s with tm.mday := number str s.mark p }
  | 22 => { s with tm.hour := number str s.mark p }
  | 23 => { s with tm.min := number str s.mark p }
  | 24 => { s with tm.sec := number str s.mark p }
  | 25 => { s with tm.year := number str s.mark p - 1900 }
  | 26 =>
    let year := number str s.mark p
    { s with tm.year := if year < 38 then year + 100 else year }
  | _ => s

/-- The actions at the end of the input, of which `done` breaks out of the loop. -/
def eofActionLoop (str : Bytes) (p : Nat) (s : Parser) : List Nat → Parser
  | [] => s
  | 1 :: _ => s
  | 25 :: as => eofActionLoop str p { s with tm.year := number str s.mark p - 1900 } as
  | _ :: as => eofActionLoop str p s as

/-- The loop of `parse` over the rest of `str` with the cursor at `p`, and the actions at the end of
the input. -/
def exec (str : Bytes) : Bytes → Nat → Parser → Parser
  | [], p, s => eofActionLoop str p s (acts (Table.eofActions.getD s.cs 0))
  | c :: rest, p, s =>
    let (cs, as) := next s.cs c
    let s := as.foldl (action str p) { s with cs }
    if s.cs = error then s else exec str rest (p + 1) s

/-- `parse`: what it returns, and the `tod` that it sets. -/
def parse (timegm : Tm → Int) (str : Bytes) : Bool × Int :=
  let s := exec (cString str) (cString str) 0 ⟨start, none, .zero⟩
  (s.cs ≠ error && s.cs = firstFinal, timegm s.tm)

end HttpDate
end Latypus.Http
