import Schemata.Alias.Subject

/-!
# What numbers, rows and the missing value have

The features of the plain values that are no texts.
-/

namespace Schemata

namespace Template

open Feature

def numberDescription : List String :=
  ["int([x]) -> integer", "int(x, base=10) -> integer", "",
   "Convert a number or string to an integer, or return 0 if no arguments",
   "are given.  If x is a number, return x.__int__().  For floating point",
   "numbers, this truncates towards zero.", "",
   "If x is not a number or if base is given, then x must be a string,",
   "bytes, or bytearray instance representing an integer literal in the",
   "given base.  The literal can be preceded by '+' or '-' and be surrounded",
   "by whitespace.  The base defaults to 10.  Valid bases are 0 and 2-36.",
   "Base 0 means to interpret the base from the string as an integer literal.",
   ">>> int('0b100', base=0)", "4"]

def numberFeatures : List Feature :=
  [creation, display, unary "__hash__" "Return hash(self).", access] ++ comparisons ++
    [binary "__add__" "self+value", binary "__radd__" "value+self", binary "__sub__" "self-value",
    binary "__rsub__" "value-self", binary "__mul__" "self*value", binary "__rmul__" "value*self",
    binary "__mod__" "self%value", binary "__rmod__" "value%self",
    binary "__divmod__" "divmod(self, value)", binary "__rdivmod__" "divmod(value, self)",
    ⟨"__pow__", .action, some "($self, value, mod=None, /)", ["Return pow(self, value, mod)."]⟩,
    ⟨"__rpow__", .action, some "($self, value, mod=None, /)", ["Return pow(value, self, mod)."]⟩,
    unary "__neg__" "-self", unary "__pos__" "+self", unary "__abs__" "abs(self)",
    unary "__bool__" "True if self else False", unary "__invert__" "~self",
    binary "__lshift__" "self<<value", binary "__rlshift__" "value<<self",
    binary "__rshift__" "self>>value", binary "__rrshift__" "value>>self",
    binary "__and__" "self&value", binary "__rand__" "value&self", binary "__xor__" "self^value",
    binary "__rxor__" "value^self", binary "__or__" "self|value", binary "__ror__" "value|self",
    unary "__int__" "int(self)", unary "__float__" "float(self)",
    binary "__floordiv__" "self//value", binary "__rfloordiv__" "value//self",
    binary "__truediv__" "self/value", binary "__rtruediv__" "value/self",
    unary "__index__"
      "Return self converted to an integer, if self is suitable for use as an index into a list.",
    plain "conjugate" ["Returns self, the complex conjugate of any int."],
    method "bit_length"
      ["Number of bits necessary to represent self in binary.", "", ">>> bin(37)", "'0b100101'",
       ">>> (37).bit_length()", "6"],
    method "bit_count"
      ["Number of ones in the binary representation of the absolute value of self.", "",
       "Also known as the population count.", "", ">>> bin(13)", "'0b1101'",
       ">>> (13).bit_count()", "3"],
    ⟨"to_bytes", .operation, some "($self, /, length=1, byteorder='big', *, signed=False)",
      ["Return an array of bytes representing an integer.", "", "  length",
       "    Length of bytes object to use.  An OverflowError is raised if the",
       "    integer is not representable with the given number of bytes.  Default",
       "    is length 1.", "  byteorder",
       "    The byte order used to represent the integer.  If byteorder is 'big',",
       "    the most significant byte is at the beginning of the byte array.  If",
       "    byteorder is 'little', the most significant byte is at the end of the",
       "    byte array.  To request the native byte order of the host system, use",
       "    `sys.byteorder' as the byte order value.  Default is to use 'big'.", "  signed",
       "    Determines whether two's complement is used to represent the integer.",
       "    If signed is False and a negative integer is given, an OverflowError",
       "    is raised."]⟩,
    ⟨"from_bytes", .shared, some "($type, /, bytes, byteorder='big', *, signed=False)",
      ["Return the integer represented by the given array of bytes.", "", "  bytes",
       "    Holds the array of bytes to convert.  The argument must either",
       "    support the buffer protocol or be an iterable object producing bytes.",
       "    Bytes and bytearray are examples of built-in objects that support the",
       "    buffer protocol.", "  byteorder",
       "    The byte order used to represent the integer.  If byteorder is 'big',",
       "    the most significant byte is at the beginning of the byte array.  If",
       "    byteorder is 'little', the most significant byte is at the end of the",
       "    byte array.  To request the native byte order of the host system, use",
       "    `sys.byteorder' as the byte order value.  Default is to use 'big'.", "  signed",
       "    Indicates whether two's complement is used to represent the integer."]⟩,
    method "as_integer_ratio"
      ["Return integer ratio.", "",
       "Return a pair of integers, whose ratio is exactly equal to the original int",
       "and with a positive denominator.", "", ">>> (10).as_integer_ratio()", "(10, 1)",
       ">>> (-10).as_integer_ratio()", "(-10, 1)", ">>> (0).as_integer_ratio()", "(0, 1)"],
    plain "__trunc__" ["Truncating an Integral returns itself."],
    plain "__floor__" ["Flooring an Integral returns itself."],
    plain "__ceil__" ["Ceiling of an Integral returns itself."],
    ⟨"__round__", .operation, some "($self, ndigits=<unrepresentable>, /)",
      ["Rounding an Integral returns itself.", "",
       "Rounding with an ndigits argument also returns an integer."]⟩,
    method "__getnewargs__" [], ⟨"__format__", .operation, some "($self, format_spec, /)", []⟩,
    method "__sizeof__" ["Returns size in memory, in bytes."],
    ⟨"real", .property, none, ["the real part of a complex number"]⟩,
    ⟨"imag", .property, none, ["the imaginary part of a complex number"]⟩,
    ⟨"numerator", .property, none, ["the numerator of a rational number in lowest terms"]⟩,
    ⟨"denominator", .property, none, ["the denominator of a rational number in lowest terms"]⟩,
    about]

def nothingFeatures : List Feature :=
  [creation, display, unary "__bool__" "True if self else False", about]

def rowDescription : List String :=
  ["Built-in immutable sequence.", "",
   "If no argument is given, the constructor returns an empty tuple.",
   "If iterable is specified the tuple is initialized from iterable's items.", "",
   "If the argument is a tuple, the return value is the same object."]

def rowFeatures : List Feature :=
  [creation, display, unary "__hash__" "Return hash(self).", access] ++ comparisons ++
    [unary "__iter__" "Implement iter(self).", unary "__len__" "Return len(self).",
    ⟨"__getitem__", .action, some "($self, key, /)", ["Return self[key]."]⟩,
    binary "__add__" "self+value", binary "__mul__" "self*value", binary "__rmul__" "value*self",
    ⟨"__contains__", .action, some "($self, key, /)", ["Return key in self."]⟩,
    method "__getnewargs__" [],
    ⟨"index", .operation, some "($self, value, start=0, stop=sys.maxsize, /)",
      ["Return first index of value.", "", "Raises ValueError if the value is not present."]⟩,
    ⟨"count", .operation, some "($self, value, /)", ["Return number of occurrences of value."]⟩,
    ⟨"__class_getitem__", .shared, none, ["See PEP 585"]⟩, about]

end Template

end Schemata
