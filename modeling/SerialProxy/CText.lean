import Mathlib.Data.List.Basic
import Mathlib.Algebra.Group.Int.Defs
import Mathlib.Algebra.Group.Nat.Defs

/-!
# C strings and the text functions of the C library

A string is the list of its characters before the terminating NUL, each
character standing for one byte. The functions follow their documented
behaviour in the POSIX locale; `atoi` converts like `strtol`, which saturates
at the limits of a 64-bit `long`, and then truncates to a 32-bit `int`.
-/

namespace SerialProxy.CText

/-- The characters of a string, without the terminating NUL. -/
abbrev CString := List Char

/-- White space of the POSIX locale: space, tab, newline, vertical tab, form
feed and carriage return. -/
def isspace (c : Char) : Bool :=
  c= ' ' || (9≤c.toNat && c.toNat≤13)

/-- `strcasecmp(a, b) == 0`: equality up to the case of the letters. -/
def strcaseEq (a b : CString) : Bool := a.map Char.toLower=b.map Char.toLower

/-- The digits at the front of a string, read in base ten. -/
def digitsValue (s : CString) : ℕ :=
  (s.takeWhile Char.isDigit).foldl (fun n c => 10*n+(c.toNat- '0'.toNat)) 0

/-- `strtol(s, NULL, 10)`: skips white space, takes one optional sign and
saturates at the limits of a 64-bit `long`. -/
def strtol (s : CString) : ℤ :=
  let value := match s.dropWhile isspace with
    | '-'::rest => -(digitsValue rest : ℤ)
    | '+'::rest => digitsValue rest
    | rest => digitsValue rest
  max (-2^63) (min (2^63-1) value)

/-- `atoi(s)`: the conversion of `strtol` truncated to a 32-bit `int`. -/
def atoi (s : CString) : ℤ := (strtol s).bmod (2^32)

/-- The tokens that `strtok(s, " ")` and the following `strtok(NULL, " ")`
return: the nonempty runs between spaces, from left to right. -/
def strtokSpace (s : CString) : List CString := (s.splitOnP (·= ' ')).filter (·≠[])

/-- `strlcpy(dst, src, size)` of server.h: `snprintf` cuts the copy to the
buffer, leaving room for the NUL. -/
def strlcpy (src : CString) (size : ℕ) : CString := src.take (size-1)

/-- The text of an integer under `%d`. -/
def decimal (i : ℤ) : CString := (toString i).toList

/-- A string shorter than the buffer is copied whole. -/
theorem strlcpy_of_lt {src : CString} {size : ℕ} (h : src.length<size) :
    strlcpy src size=src :=
  List.take_of_length_le (by omega)

/-- Every copy fits its buffer together with the terminating NUL. -/
theorem strlcpy_length_lt (src : CString) {size : ℕ} (h : 0<size) :
    (strlcpy src size).length<size := by
  rw [strlcpy,List.length_take]
  omega

end SerialProxy.CText
