/-!
# Dotted names

A dotted name is a sequence of components, possibly empty ones, divided by dots.
-/

namespace ProtoScribe.Text

/-- The components of a dotted name, as characters. There is always at least one. -/
def splitDots : List Char → List (List Char)
  | [] => [[]]
  | c :: cs =>
    if c = '.' then [] :: splitDots cs
    else match splitDots cs with
      | [] => [[c]]
      | word :: words => (c :: word) :: words

def components (s : String) : List String := (splitDots s.toList).map String.ofList

def lastComponent (s : String) : String := (components s).getLast?.getD ""

end ProtoScribe.Text
