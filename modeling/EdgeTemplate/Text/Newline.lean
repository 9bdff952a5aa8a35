/-!
# Line ends

Text files may end lines with a carriage return, a line feed or both; templates use line feeds.
-/

namespace EdgeTemplate

def normalizeNewlines : List Char → List Char
  | [] => []
  | '\r' :: '\n' :: cs => '\n' :: normalizeNewlines cs
  | '\r' :: cs => '\n' :: normalizeNewlines cs
  | c :: cs => c :: normalizeNewlines cs

end EdgeTemplate
