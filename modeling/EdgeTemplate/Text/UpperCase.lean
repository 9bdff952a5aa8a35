/-!
# Upper case

The full upper-case mapping of text, as far as it leads to ASCII: besides the ASCII letters, ten
characters have an upper case of ASCII letters only. All other characters are kept; their upper case
has a character outside ASCII, so it never makes an ASCII word.
-/

namespace EdgeTemplate

/-- Characters outside ASCII whose upper case is ASCII. -/
def asciiUpperCases : List (Char × String) :=
  [('ß', "SS"), ('ı', "I"), ('ſ', "S"), ('ﬀ', "FF"), ('ﬁ', "FI"), ('ﬂ', "FL"), ('ﬃ', "FFI"), ('ﬄ', "FFL"),
    ('ﬅ', "ST"), ('ﬆ', "ST")]

def upperCaseChar (c : Char) : List Char :=
  match List.lookup c asciiUpperCases with
  | some upper => upper.toList
  | none => [c.toUpper]

def asciiUpperCase (text : String) : String := String.ofList (text.toList.flatMap upperCaseChar)

end EdgeTemplate
