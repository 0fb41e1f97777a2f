import Mathlib

/-!
# Character classes and the page size

The tests of `include/linux/ctype.h` over the `_ctype` table of `lib/ctype.c`, for the
bytes the parsers and formatters read, and `PAGE_SIZE`.
-/

namespace LinuxKernel

def pageSize : Nat := 4096

/-- `isspace` of the `_ctype` table: tab to carriage return, space, and 0xa0. -/
def isspace (c : UInt8) : Bool := (9 ≤ c && c ≤ 13) || c == 32 || c == 160

/-- `isdigit`: `'0'` to `'9'`. -/
def isdigit (c : UInt8) : Bool := 48 ≤ c && c ≤ 57

/-- `isalnum` of the `_ctype` table: the ASCII digits and letters, and the Latin-1 letters
from 0xc0 on but for 0xd7 and 0xf7. -/
def isalnum (c : UInt8) : Bool :=
  isdigit c || (65 ≤ c && c ≤ 90) || (97 ≤ c && c ≤ 122) ||
    (192 ≤ c && c ≤ 255 && c != 215 && c != 247)

/-- `isxdigit` of the `_ctype` table: the digits and `A`–`F`, `a`–`f`. -/
def isxdigit (c : UInt8) : Bool := isdigit c || (65 ≤ c && c ≤ 70) || (97 ≤ c && c ≤ 102)

def tolower (c : UInt8) : UInt8 := c ||| 0x20

/-- `isupper` of the `_ctype` table: `A`–`Z`, and the Latin-1 capitals from 0xc0 to 0xde but
for 0xd7. -/
def isupper (c : UInt8) : Bool := (65 ≤ c && c ≤ 90) || (192 ≤ c && c ≤ 222 && c != 215)

/-- `islower` of the `_ctype` table: `a`–`z`, and the Latin-1 small letters from 0xdf on but
for 0xf7. The table marks 0xdf and 0xff lower case, with no capital 32 below them. -/
def islower (c : UInt8) : Bool := (97 ≤ c && c ≤ 122) || (223 ≤ c && c != 247)

/-- `toupper(c)`, `__toupper`: `c - ('a' - 'A')` for the bytes `islower` takes. -/
def toupper (c : UInt8) : UInt8 := if islower c then c - 32 else c

/-- `tolower(c)`, `__tolower`, which the table drives, unlike the project's `tolower`
(`_tolower`): `c - ('A' - 'a')` for the bytes `isupper` takes. -/
def tolowerCtype (c : UInt8) : UInt8 := if isupper c then c + 32 else c

end LinuxKernel
