/-!
A set of named things written out: the names between braces, with a comma and a space between two.
-/

namespace AccessTree.Text

def braces (names : List String) : String := "\x7b" ++ ", ".intercalate names ++ "\x7d"

end AccessTree.Text
