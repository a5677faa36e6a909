/-!
# Aligned texts

A text shorter than a column is filled with spaces up to the column's width, and a longer one is
left as it is. Widths count characters.
-/

namespace Linearizability.Text

def alignRight (width : Nat) (text : String) : String :=
  String.ofList (List.replicate (width - text.length) ' ') ++ text

def alignLeft (width : Nat) (text : String) : String :=
  text ++ String.ofList (List.replicate (width - text.length) ' ')

end Linearizability.Text
